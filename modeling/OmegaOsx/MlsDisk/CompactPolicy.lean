import OmegaOsx.MlsDisk.JournalRecovery

/-!
# The default compaction policy

`DefaultCompactPolicy` asks for a compaction when its count of used blocks reaches the size of the
ring. The count is kept by callbacks; `PolicyInv` says that it is the length of the chain.

`format` and all calls keep it, and then the append of a write buffer does not reach a live block and
`done_compact` does not underflow. `recover` does not: it takes a policy that counts no blocks, while
the chain it recovers has at least one (`reopen_undercounts`). And `compact` appends a block before it
trims the chain: the ring is full then, and the append overwrites the first live block
(`PolicyInv.not_spares`).
-/

namespace OmegaOsx.MlsDisk.EditJournal

open CryptoChain Symbolic DefaultCompactPolicy List

variable {Key Iv Mac E S : Type} [Inhabited Mac] [Edit E S]

/-- A call on the journal, or a restart: a recovery from the disk as it stands, with the policy that
its metadata gives. -/
inductive Call (E : Type)
  | op (op : Op E)
  | reopen (fuel rng : Nat)
  deriving DecidableEq

/-- The journals whose policy is the default one. -/
abbrev DefaultJournal (Key Iv Mac E S : Type) := EditJournal Key Iv Mac E S DefaultCompactPolicy

variable (C : Crypto Key Iv Mac) (ser : Postcard E S Mac)

def CallStep [DecidableEq Mac] (j : DefaultJournal Key Iv Mac E S) :
    Call E → DefaultJournal Key Iv Mac E S → Prop
  | .op op, j' => j.exec C ser op = .ok j'
  | .reopen fuel rng, j' => recover C ser fuel j.disk j.info (.fromMeta j.info) rng = .ok j'

/-- The policy counts the blocks of the chain, and there is room for one more. -/
structure PolicyInv (n : Nat) (j : DefaultJournal Key Iv Mac E S) : Prop where
  ring : j.chain.log.storage.length = n
  cursor : j.chain.log.cursor = some j.chain.stop
  total : j.policy.totalBlocks = n
  used : j.policy.usedBlocks = j.chain.len
  nonempty : j.chain.start < j.chain.stop
  room : j.chain.len < n

variable {C ser} {n : Nat} {j j' j1 : DefaultJournal Key Iv Mac E S}

/-! ## What an append does to the counts -/

omit [Edit E S] in
theorem append_counts {c c' : CryptoChain Key Iv Mac} {iv : Iv} {buf : Bytes}
    (cursor : c.log.cursor = some c.stop) (ok : c.append C iv buf = .ok c') :
    c'.start = c.start ∧ c'.stop = c.stop + 1 ∧ c'.log.cursor = some c'.stop ∧
      c'.log.storage.length = c.log.storage.length := by
  obtain ⟨-, ok⟩ := guard_ok.mp ok
  obtain ⟨log, appended, ok⟩ := bind_ok.mp ok
  cases ok
  simp only [BlockRing.append, cursor] at appended
  obtain ⟨-, appended⟩ := guard_ok.mp appended
  cases appended
  exact ⟨rfl, rfl, rfl, by simp⟩

omit [Edit E S] in
/-- Appending the write buffer: one more block, and the policy counts it. -/
theorem appendBuf_counts (h : PolicyInv n j) (ok : appendBuf C j = .ok j1) :
    j1.chain.start = j.chain.start ∧ j1.chain.stop = j.chain.stop + 1 ∧
      j1.chain.log.cursor = some j1.chain.stop ∧ j1.chain.log.storage.length = n ∧
      j1.policy = ⟨j.policy.usedBlocks + 1, n⟩ := by
  obtain ⟨chain, appended, ok⟩ := bind_ok.mp ok
  cases ok
  obtain ⟨start, stop, cursor, ring⟩ := append_counts h.cursor appended
  refine ⟨start, stop, cursor, ring.trans h.ring, ?_⟩
  rw [← h.total]
  rfl

omit [Edit E S] in
/-- A compaction reclaims all blocks but the one it appends. -/
theorem compact_counts {j2 : DefaultJournal Key Iv Mac E S} {k : Nat} (nonempty : j1.chain.start < j1.chain.stop)
    (cursor : j1.chain.log.cursor = some j1.chain.stop)
    (ok : compact C ser j1 = .ok (j2, k)) :
    j2.chain.start = j1.chain.stop ∧ j2.chain.stop = j1.chain.stop + 1 ∧
    j2.chain.log.cursor = some j2.chain.stop ∧
      j2.chain.log.storage.length = j1.chain.log.storage.length ∧
      j2.policy = ⟨j1.policy.usedBlocks + 1, j1.policy.totalBlocks⟩ ∧ k = j1.chain.len := by
  obtain ⟨snapshots, mac, chain, -, -, appended, rfl, rfl⟩ := compact_cases nonempty ok
  obtain ⟨start, stop, cursor, ring⟩ := append_counts cursor appended
  have long : 1 < chain.len := by unfold len; omega
  obtain ⟨start', stop'⟩ := trimmed_start long
  have log : (trimmed chain).log = chain.log := by
    rw [trimmed, if_pos long, trim]
    split <;> rfl
  refine ⟨by simp only [start']; omega, by simp only [stop', stop], ?_, ?_, rfl, ?_⟩
  · simp only [log, cursor, stop']
  · simp only [log, ring]
  · simp only [len]
    omega

/-! ## Calls keep the count -/

omit [Edit E S] in
theorem appendWriteBufToJournal_policy (h : PolicyInv n j) (two : 2 ≤ n)
    (ok : appendWriteBufToJournal C ser j = .ok j') : PolicyInv n j' := by
  have room := h.room
  have used := h.used
  have nonempty := h.nonempty
  unfold len at room used
  unfold appendWriteBufToJournal at ok
  split at ok
  next => cases ok; exact h
  next =>
    obtain ⟨j1, appended, ok⟩ := bind_ok.mp ok
    obtain ⟨start, stop, cursor, ring, policy⟩ := appendBuf_counts h (expect_ok.mp appended)
    split at ok
    next compacts =>
      obtain ⟨⟨j2, k⟩, compacted, ok⟩ := bind_ok.mp ok
      obtain ⟨start', stop', cursor', ring', policy', reclaimed⟩ :=
        compact_counts (by omega) cursor (expect_ok.mp compacted)
      obtain ⟨policy'', done, ok⟩ := bind_ok.mp ok
      obtain ⟨used', sub, done⟩ := bind_ok.mp done
      cases done
      cases ok
      obtain ⟨-, rfl⟩ := checkedSub_ok.mp sub
      refine ⟨ring'.trans ring, cursor', by simp [policy', policy], ?_, by simp only; omega, ?_⟩
      · simp only [policy', policy, reclaimed, len]
        omega
      · simp only [len]
        omega
    next stays =>
      cases ok
      have few : j.policy.usedBlocks + 1 < n := by
        simpa [CompactPolicy.shouldCompact, policy] using stays
      refine ⟨ring, cursor, by rw [policy], ?_, by omega, ?_⟩
      · simp only [policy, len]
        omega
      · simp only [len]
        omega

theorem exec_policy (h : PolicyInv n j) (two : 2 ≤ n) {op : Op E} (ok : j.exec C ser op = .ok j') :
    PolicyInv n j' := by
  have write_policy : ∀ {j j' : DefaultJournal Key Iv Mac E S} {r : Record E Mac},
      PolicyInv n j → write C ser j r = .ok j' → PolicyInv n j' := by
    intro j j' r h ok
    unfold write at ok
    split at ok
    next => cases ok; exact ⟨h.ring, h.cursor, h.total, h.used, h.nonempty, h.room⟩
    next =>
      obtain ⟨j1, appended, ok⟩ := bind_ok.mp ok
      have h1 := appendWriteBufToJournal_policy h two appended
      split at ok
      next => cases ok; exact ⟨h1.ring, h1.cursor, h1.total, h1.used, h1.nonempty, h1.room⟩
      next => cases ok
  cases op with
  | add edit => cases ok; exact ⟨h.ring, h.cursor, h.total, h.used, h.nonempty, h.room⟩
  | abort => cases ok; exact ⟨h.ring, h.cursor, h.total, h.used, h.nonempty, h.room⟩
  | flush => exact appendWriteBufToJournal_policy h two ok
  | commit =>
    simp only [exec, commit] at ok
    split at ok
    next => cases ok; exact h
    next => cases ok; exact ⟨h.ring, h.cursor, h.total, h.used, h.nonempty, h.room⟩
    next e es _ =>
      obtain ⟨j1, written, ok⟩ := bind_ok.mp ok
      cases ok
      have h1 := write_policy (j := { j with currEditGroup := none })
        ⟨h.ring, h.cursor, h.total, h.used, h.nonempty, h.room⟩ written
      exact ⟨h1.ring, h1.cursor, h1.total, h1.used, h1.nonempty, h1.room⟩

/-! ## What the callbacks have to guarantee -/

/-- An append would not reach a live block of the chain. -/
def Spares (c : CryptoChain Key Iv Mac) : Prop :=
  ∀ next, c.log.cursor = some next → ∀ q, c.start ≤ q → q < c.stop →
    q % c.log.storage.length ≠ next % c.log.storage.length

variable (C) in
/-- Appending the write buffer makes the policy compact. -/
def Compacts (j j1 : DefaultJournal Key Iv Mac E S) : Prop :=
  appendBuf C j = .ok j1 ∧ CompactPolicy.shouldCompact E j1.policy = true

variable (C ser) in
/-- The count is exact, neither the next append nor that of the compaction it leads to reaches a live
block, and its `done_compact` does not underflow. -/
structure Counted (j : DefaultJournal Key Iv Mac E S) : Prop where
  used : j.policy.usedBlocks = j.chain.len
  live : Spares j.chain
  compacting : ∀ j1, Compacts C j j1 → Spares j1.chain
  reclaims : ∀ j1 j2 k, appendBuf C j = .ok j1 → compact C ser j1 = .ok (j2, k) → k ≤ j2.policy.usedBlocks

omit [Edit E S] in
theorem PolicyInv.counted (h : PolicyInv n j) (calm : ∀ j1, ¬ Compacts C j j1) : Counted C ser j := by
  have room := h.room
  have used := h.used
  have nonempty := h.nonempty
  unfold len at room used
  refine ⟨h.used, ?_, fun j1 compacts => absurd compacts (calm j1), ?_⟩
  · intro next cursor q from_start before
    rw [h.cursor] at cursor
    cases cursor
    rw [h.ring]
    exact Ring.mod_ne_of_lt_lap before (by omega)
  · intro j1 j2 k appended compacted
    obtain ⟨start, stop, cursor, -, policy⟩ := appendBuf_counts h appended
    obtain ⟨-, -, -, -, policy', reclaimed⟩ := compact_counts (by omega) cursor compacted
    simp only [policy', policy, reclaimed, len]
    omega

omit [Edit E S] in
/-- The append of a compaction overwrites the first live block. -/
theorem PolicyInv.not_spares (h : PolicyInv n j) (compacts : Compacts C j j1) : ¬ Spares j1.chain := by
  have room := h.room
  have used := h.used
  have nonempty := h.nonempty
  unfold len at room used
  obtain ⟨appended, full⟩ := compacts
  obtain ⟨start, stop, cursor, ring, policy⟩ := appendBuf_counts h appended
  have full : n ≤ j.policy.usedBlocks + 1 := by simpa [CompactPolicy.shouldCompact, policy] using full
  have lap : j1.chain.stop = j1.chain.start + n := by omega
  intro spares
  refine spares j1.chain.stop cursor j1.chain.start le_rfl (by omega) ?_
  rw [ring, lap, Nat.add_mod_right]

variable {policy : DefaultCompactPolicy}

omit [Edit E S] in
/-- After `format` the policy counts the one block there is. -/
theorem format_policy {disk : RawDisk Iv Mac} {keys : Fin 2 → Key} {key : Key} {initState : S}
    {stateMaxNbytes rng : Nat} (ideal : C.Ideal)
    (sized : new disk.nblocks stateMaxNbytes = .ok policy)
    (ok : format C ser disk keys key rng initState stateMaxNbytes policy = .ok j) :
    j.chain.start = 0 ∧ j.chain.stop = 1 ∧ j.chain.log.cursor = some 1 ∧
      j.chain.log.storage.length = policy.totalBlocks ∧ 0 < policy.totalBlocks ∧
      j.policy = ⟨1, policy.totalBlocks⟩ := by
  obtain ⟨hist, stored, -, -, -, one, start⟩ := format_stored ideal ok
  obtain ⟨total, sub, sized⟩ := bind_ok.mp sized
  cases sized
  obtain ⟨-, rfl⟩ := checkedSub_ok.mp sub
  have ring := stored.chain.ring.length_eq
  have pos := stored.chain.ring.pos
  rw [disk.journal, mul_comm] at ring pos
  refine ⟨start, by rw [stored.chain.stop_eq, one], by rw [stored.chain.cursor, one], ring, pos, ?_⟩
  obtain ⟨snapshots, -, ok⟩ := bind_ok.mp ok
  obtain ⟨mac, -, ok⟩ := bind_ok.mp ok
  obtain ⟨writeBuf, -, ok⟩ := bind_ok.mp ok
  obtain ⟨chain, -, ok⟩ := bind_ok.mp ok
  cases ok
  rfl

/-! ## Recovery starts the count afresh -/

section Reopen

variable [DecidableEq Mac] {init : List (ChainBlock Iv Mac)} {key : Key} {fuel more rng : Nat} {calls : List (Call E)}

omit [Inhabited Mac] in
theorem replay_mono {mac : Mac} (le : fuel ≤ more) {r : Recovery Key Iv Mac}
    {acc : S × Bool} {out : Recovery Key Iv Mac × S}
    (done : replay C ser mac fuel r acc = some out) : replay C ser mac more r acc = some out := by
  induction fuel generalizing more r acc with
  | zero => simp [replay] at done
  | succ fuel ih =>
    obtain ⟨more, rfl⟩ : ∃ m, more = m + 1 := ⟨more - 1, by omega⟩
    unfold replay at done ⊢
    split at done
    next end_ => simpa [end_] using done
    next r' buf more_ => simpa [more_] using ih (by omega) done

omit [Inhabited Mac] in
theorem recover_mono (le : fuel ≤ more) {disk : JournalDisk Iv Mac} {info : EditJournalMeta Key}
    (ok : recover C ser fuel disk info policy rng = .ok j) :
    recover C ser more disk info policy rng = .ok j := by
  unfold recover at ok ⊢
  obtain ⟨snapshots, managed, ok⟩ := bind_ok.mp ok
  obtain ⟨mac, latest, ok⟩ := bind_ok.mp ok
  simp only [managed, latest, bind, Except.bind]
  dsimp only at ok
  split at ok
  next => cases ok
  next chain state done => simpa [replay_mono le done] using ok

/-- The recovered chain has a block, and the policy of a recovered journal counts none. -/
theorem reopen_undercounts (ideal : C.Ideal) (rt : ser.RoundTrips) (sound : Sound C ser init key j)
    (foreign : ∀ b ∈ init, b.Foreign C key) (within : j.chain.len ≤ init.length)
    (reopened : CallStep C ser j (.reopen fuel rng) j') :
    j'.policy.usedBlocks = 0 ∧ 0 < j'.chain.len := by
  obtain ⟨hist, onDisk, inBuf, stored, -⟩ := sound
  have ok := recover_mono (Nat.le_add_right fuel (init.length + 1)) reopened
  rw [stored.recover_eq ideal rt foreign within (by omega)] at ok
  cases ok
  have lt := stored.start_lt
  refine ⟨rfl, ?_⟩
  simp only [len, stored.chain.stop_eq]
  omega

/-- A run that is counted in all its states never reopens the journal. -/
theorem not_reopened (ideal : C.Ideal) (rt : ser.RoundTrips)
    (foreign : ∀ b ∈ init, b.Foreign C key) (sized : init.length = n) (two : 2 ≤ n)
    (run : Labelled.Run (CallStep C ser) j calls j')
    (sound : Sound C ser init key j) (policy : PolicyInv n j)
    (counted : ∀ pre s, pre <+: calls → Labelled.Run (CallStep C ser) j pre s → Counted C ser s) :
    ∀ call ∈ calls, ∃ op, call = .op op := by
  induction run with
  | nil => simp
  | @cons j s _ call calls first _ ih =>
    cases call with
    | op op =>
      have rest := ih (exec_sound ideal rt sound first).1 (exec_policy policy two first)
        fun pre t before run => counted _ t (cons_prefix_cons.mpr ⟨rfl, before⟩) (.cons first run)
      simpa using rest
    | reopen fuel rng =>
      have within : j.chain.len ≤ init.length := by have := policy.room; omega
      obtain ⟨none, some⟩ := reopen_undercounts ideal rt sound foreign within first
      have exact_ := (counted [_] s (cons_prefix_cons.mpr ⟨rfl, nil_prefix⟩) (.cons first (.nil s))).used
      omega

theorem run_policy (run : Labelled.Run (CallStep C ser) j calls j') (two : 2 ≤ n)
    (ops : ∀ call ∈ calls, ∃ op, call = .op op) (h : PolicyInv n j) : PolicyInv n j' := by
  induction run with
  | nil => exact h
  | cons first _ ih =>
    obtain ⟨⟨op, rfl⟩, rest⟩ := forall_mem_cons.mp ops
    exact ih rest (exec_policy h two first)

/-- In all states of a run the policy counts the live blocks and no append reaches one, if and only if the ring has two
blocks, the journal is never reopened, and no append leads to a compaction. Without the last condition the count is
exact all the same. -/
theorem counted_iff_never_reopened (ideal : C.Ideal) (rt : ser.RoundTrips) {disk : RawDisk Iv Mac}
    {keys : Fin 2 → Key} {initState : S} {stateMaxNbytes rng : Nat} {policy : DefaultCompactPolicy}
    {j0 : DefaultJournal Key Iv Mac E S} {calls : List (Call E)}
    (foreign : ∀ b ∈ (disk.carve (snapshotBlocks stateMaxNbytes)).journalArea, b.Foreign C key)
    (sized : DefaultCompactPolicy.new disk.nblocks stateMaxNbytes = .ok policy)
    (formatted : format C ser disk keys key rng initState stateMaxNbytes policy = .ok j0)
    (run : Labelled.Run (CallStep C ser) j0 calls j) :
    ((∀ pre s, pre <+: calls → Labelled.Run (CallStep C ser) j0 pre s → Counted C ser s) ↔
      (2 ≤ policy.totalBlocks ∧ ∀ call ∈ calls, ∃ op, call = .op op) ∧
        ∀ pre s, pre <+: calls → Labelled.Run (CallStep C ser) j0 pre s → ∀ j1, ¬ Compacts C s j1) ∧
    ((2 ≤ policy.totalBlocks ∧ ∀ call ∈ calls, ∃ op, call = .op op) →
      ∀ pre s, pre <+: calls → Labelled.Run (CallStep C ser) j0 pre s → PolicyInv policy.totalBlocks s) := by
  obtain ⟨start, stop, cursor, ring, pos, counts⟩ := format_policy ideal sized formatted
  have init_policy : 2 ≤ policy.totalBlocks → PolicyInv policy.totalBlocks j0 := fun two =>
    { ring := ring
      cursor := by rw [cursor, stop]
      total := by rw [counts]
      used := by rw [counts, len, start, stop]
      nonempty := by omega
      room := by unfold len; omega }
  have keeps : (2 ≤ policy.totalBlocks ∧ ∀ call ∈ calls, ∃ op, call = .op op) →
      ∀ pre s, pre <+: calls → Labelled.Run (CallStep C ser) j0 pre s → PolicyInv policy.totalBlocks s :=
    fun never pre s before prefixRun =>
      run_policy prefixRun never.1 (fun call mem => never.2 call (before.subset mem)) (init_policy never.1)
  refine ⟨⟨fun counted => ?_, fun clean pre s before prefixRun =>
    (keeps clean.1 pre s before prefixRun).counted (clean.2 pre s before prefixRun)⟩, keeps⟩
  have two : 2 ≤ policy.totalBlocks := by
    have apart := (counted [] j0 nil_prefix (.nil j0)).live 1 cursor 0 (by omega) (by omega)
    rw [ring] at apart
    by_contra less
    have one : policy.totalBlocks = 1 := by omega
    exact apart (by rw [one])
  have sound := format_sound ideal formatted
  have size : (disk.carve (snapshotBlocks stateMaxNbytes)).journalArea.length = policy.totalBlocks := by
    obtain ⟨hist, onDisk, inBuf, stored, -⟩ := sound.1
    exact stored.chain.ring.length_eq.symm.trans ring
  have never := not_reopened ideal rt foreign size two run sound.1 (init_policy two) counted
  exact ⟨⟨two, never⟩, fun pre s before prefixRun j1 compacts =>
    (keeps ⟨two, never⟩ pre s before prefixRun).not_spares compacts
    ((counted pre s before prefixRun).compacting j1 compacts)⟩

/-- A ring of four blocks in which two are live. -/
theorem counted_iff_never_reopened_fourBlocks : ∃ j0 j : DefaultJournal UInt8 Nat Bytes UInt8 Bytes,
    format Symbolic.cipher Symbolic.ser (blankDisk 6) ![1, 2] 3 0 [] 100 ⟨0, 4⟩ = .ok j0 ∧
    Labelled.Run (CallStep Symbolic.cipher Symbolic.ser) j0 [.op (.add 7), .op .commit, .op .flush] j ∧
      j.policy.usedBlocks = 2 ∧ Counted Symbolic.cipher Symbolic.ser j := by
  obtain ⟨⟨j0, j1, j2, j⟩, ok, seen⟩ := exists_ok_of_map
    (x := do
      let j0 ← format cipher ser (blankDisk 6) ![1, 2] 3 0 [] 100 (⟨0, 4⟩ : DefaultCompactPolicy)
      let j1 ← j0.exec cipher ser (.add 7)
      let j2 ← j1.exec cipher ser .commit
      pure (j0, j1, j2, ← j2.exec cipher ser .flush))
    (f := fun x => ((x.1.policy, x.2.1.policy), x.2.2.1.policy, x.2.2.2.policy))
    (b := ((⟨1, 4⟩, ⟨1, 4⟩), ⟨1, 4⟩, ⟨2, 4⟩)) (by decide +kernel)
  obtain ⟨_, formatted, ok⟩ := bind_ok.mp ok
  obtain ⟨_, added, ok⟩ := bind_ok.mp ok
  obtain ⟨_, committed, ok⟩ := bind_ok.mp ok
  obtain ⟨_, flushed, ok⟩ := bind_ok.mp ok
  cases ok
  simp only [Prod.mk.injEq] at seen
  obtain ⟨⟨policy0, policy1⟩, policy2, policy3⟩ := seen
  have run : Labelled.Run (CallStep cipher ser) j0 [.op (.add 7), .op .commit, .op .flush] j :=
    .cons added (.cons committed (.cons flushed (.nil j)))
  have sized : new (blankDisk 6).nblocks 100 = .ok ⟨0, 4⟩ := by
    decide +kernel
  have calm {s s1 : DefaultJournal UInt8 Nat Bytes UInt8 Bytes} {used : Nat}
    (eq : s.policy = ⟨used, 4⟩) (few : used < 3) :
      ¬ Compacts cipher s s1 := by
    rintro ⟨appended, full⟩
    obtain ⟨chain, -, appended⟩ := bind_ok.mp appended
    cases appended
    have full : 4 ≤ used + 1 := by simpa [CompactPolicy.shouldCompact, CompactPolicy.onAppendJournal, eq] using full
    omega
  have counted := (counted_iff_never_reopened cipher_ideal ser_roundTrips
    (blank_foreign 3) sized formatted run).1.mpr ⟨⟨by decide, by simp⟩, fun pre s before prefixRun s1 => ?_⟩
  · exact ⟨j0, j, formatted, run, by rw [policy3], counted _ j prefix_rfl run⟩
  -- the state before each call is the one computed above
  cases prefixRun with
  | nil => exact calm policy0 (by decide)
  | cons first rest =>
    obtain ⟨rfl, before1⟩ := cons_prefix_cons.mp before
    cases added.symm.trans first
    cases rest with
    | nil => exact calm policy1 (by decide)
    | cons first rest =>
      obtain ⟨rfl, before2⟩ := cons_prefix_cons.mp before1
      cases committed.symm.trans first
      cases rest with
      | nil => exact calm policy2 (by decide)
      | cons first rest =>
        obtain ⟨rfl, before3⟩ := cons_prefix_cons.mp before2
        cases flushed.symm.trans first
        cases prefix_nil.mp before3
        cases rest
        exact calm policy3 (by decide)

/-- Right after a recovery the policy counts no block while the chain has one. -/
theorem reopened_count_is_zero : ∃ j0 j, twoBlocks = .ok j0 ∧
      Labelled.Run (CallStep Symbolic.cipher Symbolic.ser) j0 [.reopen 3 1] j ∧
      j.policy.usedBlocks = 0 ∧ j.chain.len = 1 ∧ ¬ Counted Symbolic.cipher Symbolic.ser j := by
  obtain ⟨j, ok, counts⟩ : ∃ j : DefaultJournal UInt8 Nat Bytes UInt8 Bytes, (do
      let j0 ← twoBlocks
      recover cipher ser 3 j0.disk j0.info (fromMeta j0.info) 1) = .ok j ∧
      (j.policy.usedBlocks, j.chain.len) = (0, 1) := exists_ok_of_map (by decide +kernel)
  obtain ⟨j0, formatted, reopened⟩ := bind_ok.mp ok
  obtain ⟨none, one⟩ := Prod.mk.inj counts
  refine ⟨j0, j, formatted, .cons reopened (.nil j), none, one, fun counted => ?_⟩
  have := counted.used
  omega

end Reopen

end OmegaOsx.MlsDisk.EditJournal
