import Mathlib.Data.Fintype.Basic
import Mathlib.Tactic.FinCases
import OmegaOsx.MlsDisk.EditJournal

/-!
# What the disk holds of an edit journal

`SnapshotsInv` describes the two snapshot areas, `Stored` the whole journal: the chain from the
latest snapshot on consists of a `Version` record of that snapshot followed by the edit groups
committed since, `onDisk`, and the write buffer holds the groups `inBuf`.
-/

namespace OmegaOsx.MlsDisk

open CryptoBlob List Function CryptoChain SnapshotManager

variable {Key Iv Mac E S P : Type}

/-! ## The snapshot areas -/

namespace SnapshotManager

variable (C : Crypto Key Iv Mac) (ser : Postcard E S Mac)

/-- Both areas hold a snapshot and the versions tell which one is the latest. -/
structure SnapshotsInv (m : SnapshotManager Key Mac S) : Prop where
  holds : ∀ i, ∃ s, CryptoBlob.Holds C (m.blobs i).key (m.blobs i).area.header.version
    (ser.snapshotToSlice s) (m.blobs i).area ∧ (i = m.latestIndex → s = m.snapshot)
  cached : ∀ i, (m.blobs i).header = some (m.blobs i).area.header
  size : ∀ i, (m.blobs i).area.nblocks * blockSize = m.bufLen
  versions :
    (m.latestIndex = 0 ∧ (m.blobs 0).area.header.version = (m.blobs 1).area.header.version) ∨
    (m.latestIndex = 1 ∧ (m.blobs 0).area.header.version + 1 = (m.blobs 1).area.header.version)

variable {C ser} {m m' : SnapshotManager Key Mac S}

theorem SnapshotsInv.latestMac_eq (h : SnapshotsInv C ser m) :
    m.latestMac = .ok (m.blobs m.latestIndex).area.header.mac := by
  simp [latestMac, currentMac, h.cached]

variable [Inhabited Mac]

theorem create_inv (ideal : C.Ideal) {disk : RawDisk Iv Mac} {keys : Fin 2 → Key} {initState : S}
    {stateMaxNbytes : Nat} (ok : create C ser disk keys initState stateMaxNbytes = .ok m) :
    SnapshotsInv C ser m ∧ m.snapshot = ⟨initState, 0⟩ ∧
    (m.blobs 0).area.nblocks = snapshotBlocks stateMaxNbytes ∧
      2 * snapshotBlocks stateMaxNbytes < disk.nblocks := by
  obtain ⟨room, ok⟩ := guard_ok.mp ok
  obtain ⟨-, ok⟩ := guard_ok.mp ok
  obtain ⟨blob0, ok0, ok⟩ := bind_ok.mp ok
  obtain ⟨blob1, ok1, ok⟩ := bind_ok.mp ok
  cases ok
  obtain ⟨holds0, key0, cached0, size0⟩ := create_holds ideal ok0
  obtain ⟨holds1, key1, cached1, size1⟩ := create_holds ideal ok1
  rw [disk.areas] at size0 size1
  refine ⟨⟨fun i => ⟨⟨initState, 0⟩, ?_, fun _ => rfl⟩, fun i => ?_, fun i => ?_, .inl ⟨rfl, ?_⟩⟩,
    rfl, size0, by omega⟩
  · fin_cases i
    · simpa [holds0.header, key0] using holds0
    · simpa [holds1.header, key1] using holds1
  · fin_cases i
    · exact cached0
    · exact cached1
  · fin_cases i
    · simp [size0]
    · simp [size1]
  · simp [holds0.header, holds1.header]

/-- Persisting a snapshot overwrites the older area and makes it the latest. -/
theorem persist_inv (ideal : C.Ideal) (h : SnapshotsInv C ser m) {s : Snapshot S} (ok : m.persist C ser s = .ok m') :
    SnapshotsInv C ser m' ∧ m'.snapshot = s ∧ (∀ i, (m'.blobs i).key = (m.blobs i).key) ∧
      (∀ i, (m'.blobs i).area.nblocks = (m.blobs i).area.nblocks) := by
  obtain ⟨-, ok⟩ := guard_ok.mp ok
  obtain ⟨blob, written, ok⟩ := bind_ok.mp ok
  cases ok
  obtain ⟨holds, key, cached, size⟩ := write_holds ideal written (h.cached _)
  have version : blob.area.header.version = (m.blobs (m.latestIndex + 1)).area.header.version + 1 := by
    rw [holds.header]
  rw [← version, ← key] at holds
  refine ⟨⟨fun i => ?_, fun i => ?_, fun i => ?_, ?_⟩, rfl, update_same m.blobs (·.key) key,
    update_same m.blobs (·.area.nblocks) size⟩
  · by_cases same : i = m.latestIndex + 1
    · subst same
      exact ⟨s, by simpa using holds, fun _ => rfl⟩
    · obtain ⟨old, held, -⟩ := h.holds i
      exact ⟨old, by simpa [update_of_ne same] using held, fun h => absurd h same⟩
  · by_cases same : i = m.latestIndex + 1
    · subst same; simpa using cached
    · simpa [update_of_ne same] using h.cached i
  · by_cases same : i = m.latestIndex + 1
    · subst same; simpa [size] using h.size _
    · simpa [update_of_ne same] using h.size i
  · rcases h.versions with ⟨latest, same⟩ | ⟨latest, next⟩
    · right; simp [latest] at version ⊢; omega
    · left; simp [latest] at version ⊢; omega

section

variable (ideal : C.Ideal) (rt : ser.RoundTrips) (h : SnapshotsInv C ser m)
include ideal rt h

theorem SnapshotsInv.readSnapshot_eq (i : Fin 2) :
    ∃ s, readSnapshot C ser (openArea (m.blobs i).key (m.blobs i).area) m.bufLen =
      (some s, m.blobs i) ∧ (i = m.latestIndex → s = m.snapshot) := by
  obtain ⟨s, held, latest⟩ := h.holds i
  have room := capacity_le (m.blobs i).area
  rw [h.size i] at room
  refine ⟨s, ?_, latest⟩
  rw [readSnapshot, read_of_holds ideal held room, ← h.cached i]
  simp [rt.snapshot]

/-- The manager is recovered as it was. -/
theorem SnapshotsInv.recover_eq
    {disk : JournalDisk Iv Mac} {info : EditJournalMeta Key}
    (areas : ∀ i, disk.snapshotAreas i = (m.blobs i).area)
    (keys : ∀ i, info.snapshotAreaKeys i = (m.blobs i).key)
    (size : info.snapshotAreaNblocks * blockSize = m.bufLen) :
    recover C ser disk info = .ok m := by
  obtain ⟨s0, read0, latest0⟩ := h.readSnapshot_eq ideal rt 0
  obtain ⟨s1, read1, latest1⟩ := h.readSnapshot_eq ideal rt 1
  have pair : ![m.blobs 0, m.blobs 1] = m.blobs := by
    funext i; fin_cases i <;> rfl
  simp only [recover, areas, keys, size, read0, read1, repair]
  simp only [bind, Except.bind, versionId, h.cached, Option.map_some, pair]
  rcases h.versions with ⟨latest, same⟩ | ⟨latest, next⟩
  · rw [if_pos same, latest0 latest.symm, ← latest]
  · rw [if_neg (by omega), if_pos next, latest1 latest.symm, ← latest]

end

/-- The MAC of the latest snapshot, as it stands on the disk. -/
def mac (m : SnapshotManager Key Mac S) : Mac := (m.blobs m.latestIndex).area.header.mac

end SnapshotManager

/-! ## Serialised records -/

variable {records : List (Record E Mac)}

section Records

variable {ser : Postcard E S Mac}

/-- A sequence of records as it stands in a block. -/
def encode (ser : Postcard E S Mac) (records : List (Record E Mac)) : Bytes :=
  records.flatMap ser.toSlice

section

variable (rt : ser.RoundTrips)

include rt

theorem Postcard.RoundTrips.toSlice_ne_nil (r : Record E Mac) : ser.toSlice r ≠ [] := by
  intro empty
  have := rt.take_toSlice r []
  rw [empty, nil_append, rt.take_nil] at this
  cases this

theorem encode_eq_nil : encode ser records = [] ↔ records = [] := by
  cases records with
  | nil => simp [encode]
  | cons r records => simp [encode, rt.toSlice_ne_nil r]

theorem recordsUpTo_encode {n : Nat} (enough : records.length ≤ n) :
    recordsUpTo ser n (encode ser records) = records := by
  induction records generalizing n with
  | nil =>
    cases n with
    | zero => rfl
    | succ n => simp [encode, recordsUpTo, rt.take_nil]
  | cons r records ih =>
    obtain ⟨n, rfl⟩ : ∃ k, n = k + 1 := Nat.exists_eq_succ_of_ne_zero (by simp at enough; omega)
    have rest := ih (by simpa using enough)
    simp only [encode, flatMap_cons, recordsUpTo, rt.take_toSlice]
    rw [← encode, rest]

theorem length_le_encode (records : List (Record E Mac)) : records.length ≤ (encode ser records).length := by
  induction records with
  | nil => simp
  | cons r records ih =>
    have := length_pos_iff.mpr (rt.toSlice_ne_nil r)
    simp only [encode, flatMap_cons, length_append, length_cons] at ih ⊢
    omega

theorem recordSlice_encode (records : List (Record E Mac)) : recordSlice ser (encode ser records) = records :=
  recordsUpTo_encode rt (length_le_encode rt records)

end

end Records

/-! ## The journal -/

variable {chain : CryptoChain Key Iv Mac}

namespace EditJournal

/-- The state after applying edit groups in order. -/
def applyGroups [Edit E S] (groups : List (List E)) (state : S) : S :=
  groups.foldl (fun s g => applyGroup g s) state

section Replay

variable [Edit E S] [DecidableEq Mac] {C : Crypto Key Iv Mac} {ser : Postcard E S Mac}

theorem foldl_applyRecord_edits (mac : Mac) (groups : List (List E)) (state : S) :
    (groups.map Record.edit).foldl (applyRecord mac) (state, true) = (applyGroups groups state, true) := by
  induction groups generalizing state with
  | nil => rfl
  | cons g groups ih =>
    simp only [map_cons, foldl_cons, applyRecord, ih]
    rfl

/-- With enough fuel, the loop of `recover` applies all records of the blocks that the recovery
yields. -/
theorem replay_of_yields {mac : Mac} {r r' : Recovery Key Iv Mac} {payloads : List Bytes}
    (h : r.Yields C payloads r') {fuel : Nat} (enough : payloads.length < fuel) (acc : S × Bool) :
    replay C ser mac fuel r acc = some (r', ((payloads.flatMap (recordSlice ser)).foldl (applyRecord mac) acc).1) := by
  induction h generalizing fuel acc with
  | done stopped =>
    obtain ⟨fuel, rfl⟩ := Nat.exists_eq_succ_of_ne_zero (Nat.ne_zero_of_lt enough)
    simp [replay, stopped]
  | more first _ ih =>
    obtain ⟨fuel, rfl⟩ := Nat.exists_eq_succ_of_ne_zero (Nat.ne_zero_of_lt enough)
    simp only [replay, first, flatMap_cons, foldl_append]
    exact ih (by simpa using enough) _

end Replay

variable [Inhabited Mac] (C : Crypto Key Iv Mac) (ser : Postcard E S Mac)

/-- The IVs were drawn from the random source, each by its own draw, before draw `rng`. -/
def DrawnBefore (rng : Nat) (ivs : List Iv) : Prop :=
  ∃ draws : List Nat, ivs = draws.map C.randomIv ∧ draws.Nodup ∧ ∀ d ∈ draws, d < rng

/-- The chain of `j` holds, from the latest snapshot on, a `Version` record and the groups
`onDisk`; its write buffer holds the groups `inBuf`. `hist` is everything appended since the journal
area held `init`. -/
structure Stored (init : List (ChainBlock Iv Mac)) (key : Key)
    (hist : List (Iv × Bytes)) (onDisk inBuf : List (List E)) (j : EditJournal Key Iv Mac E S P) :
    Prop where
  chain : ChainInv C init hist j.chain
  key_eq : j.chain.key = key
  drawn : DrawnBefore C j.rng (hist.map Prod.fst)
  snapshots : SnapshotManager.SnapshotsInv C ser j.snapshots
  start_eq : j.chain.start = j.snapshots.snapshot.recoverFrom
  blocks : ∃ chunks : List (List (List E)),
    (hist.drop j.chain.start).map Prod.snd =
      ser.toSlice (.version j.snapshots.mac) ::
        chunks.map (fun groups => encode ser (groups.map .edit)) ∧
    chunks.flatten = onDisk
  buf : j.writeBuf.data = encode ser (inBuf.map .edit)
  capacity : j.writeBuf.capacity = availBlockSize

variable {C ser} {init : List (ChainBlock Iv Mac)} {key : Key}
  {hist : List (Iv × Bytes)} {onDisk inBuf : List (List E)} {j j' : EditJournal Key Iv Mac E S P} {rng n fuel : Nat}

omit [Inhabited Mac] in
theorem DrawnBefore.draw {ivs : List Iv} (h : DrawnBefore C rng ivs) :
    DrawnBefore C (rng + 1) (ivs ++ [C.randomIv rng]) := by
  obtain ⟨draws, rfl, nodup, before⟩ := h
  refine ⟨draws ++ [rng], by simp, ?_, ?_⟩
  · exact List.Nodup.append nodup (nodup_singleton rng)
      (disjoint_singleton.mpr fun mem => lt_irrefl _ (before rng mem))
  intro d mem
  rcases mem_append.mp mem with old | new
  · exact Nat.lt_succ_of_lt (before d old)
  · rw [mem_singleton.mp new]
    exact Nat.lt_succ_self rng

/-- Only the chain, the snapshots, the write buffer and the random source matter. -/
theorem Stored.congr (h : Stored C ser init key hist onDisk inBuf j)
    (chain : j'.chain = j.chain) (snapshots : j'.snapshots = j.snapshots)
    (writeBuf : j'.writeBuf = j.writeBuf) (rng : j'.rng = j.rng) :
    Stored C ser init key hist onDisk inBuf j' where
  chain := chain ▸ h.chain
  key_eq := chain ▸ h.key_eq
  drawn := rng ▸ h.drawn
  snapshots := snapshots ▸ h.snapshots
  start_eq := by rw [chain, snapshots, h.start_eq]
  blocks := by rw [chain, snapshots]; exact h.blocks
  buf := by rw [writeBuf, h.buf]
  capacity := by rw [writeBuf, h.capacity]

theorem Stored.start_lt (h : Stored C ser init key hist onDisk inBuf j) : j.chain.start < hist.length := by
  obtain ⟨chunks, blocks, -⟩ := h.blocks
  have := congrArg length blocks
  simp only [length_map, length_drop, length_cons] at this
  omega

omit [Inhabited Mac] in
theorem trimmed_start (long : 1 < chain.len) :
    (trimmed chain).start = chain.stop - 1 ∧ (trimmed chain).stop = chain.stop := by
  have : chain.start < chain.stop - 1 := by unfold len at long; omega
  rw [trimmed, if_pos long, trim, if_neg (by omega)]
  exact ⟨rfl, rfl⟩

theorem trimmed_inv (h : ChainInv C init hist chain) (long : 1 < chain.len) :
    ChainInv C init hist (trimmed chain) ∧ (trimmed chain).key = chain.key := by
  have le : chain.stop - 1 ≤ hist.length := by rw [h.stop_eq]; exact Nat.sub_le _ _
  rw [trimmed, if_pos long]
  exact trim_inv h le

variable [CompactPolicy P E]

/-- Appending the write buffer moves its groups to the disk. -/
theorem appendBuf_stored (h : Stored C ser init key hist onDisk inBuf j) (ok : appendBuf C j = .ok j') :
    Stored C ser init key (hist ++ [(C.randomIv j.rng, j.writeBuf.data)]) (onDisk ++ inBuf) [] j' ∧
      j'.state = j.state ∧ j'.snapshots = j.snapshots ∧ j'.currEditGroup = j.currEditGroup ∧
      j'.chain.start = j.chain.start := by
  obtain ⟨chain, appended, ok⟩ := bind_ok.mp ok
  cases ok
  obtain ⟨inv, start, key_eq⟩ := append_inv h.chain (.inl h.start_lt) appended
  obtain ⟨chunks, blocks, flat⟩ := h.blocks
  refine ⟨⟨inv, key_eq.trans h.key_eq, ?_, h.snapshots, start.trans h.start_eq, ?_, ?_,
    h.capacity⟩, rfl, rfl, rfl, start⟩
  · simpa using h.drawn.draw
  · refine ⟨chunks ++ [inBuf], ?_, by simp [flat]⟩
    have le := h.start_lt.le
    simp only [start, drop_append_of_le_length le, map_append, blocks, h.buf, map_cons, map_nil, cons_append]
  · simp [WriteBuf.clear, encode]

/-- What a compaction of a chain with blocks did. -/
theorem compact_cases (nonempty : j.chain.start < j.chain.stop) (ok : compact C ser j = .ok (j', n)) :
    ∃ snapshots mac chain, j.snapshots.persist C ser ⟨j.state, j.chain.stop⟩ = .ok snapshots ∧
      snapshots.latestMac = .ok mac ∧
      j.chain.append C (C.randomIv j.rng) (j.writeBuf.data ++ ser.toSlice (.version mac)) = .ok chain ∧
      j' = { j with
        snapshots := snapshots
        chain := trimmed chain
        policy := CompactPolicy.onAppendJournal E j.policy 1
        writeBuf := j.writeBuf.clear
        rng := j.rng + 1 } ∧
      n = chain.len - (trimmed chain).len := by
  rw [compact, if_neg (by omega)] at ok
  obtain ⟨snapshots, persisted, ok⟩ := bind_ok.mp ok
  obtain ⟨mac, named, ok⟩ := bind_ok.mp ok
  obtain ⟨writeBuf, written, ok⟩ := bind_ok.mp ok
  obtain ⟨-, written⟩ := guard_ok.mp written
  cases written
  obtain ⟨j1, appends, ok⟩ := bind_ok.mp ok
  obtain ⟨chain, appended, returned⟩ := bind_ok.mp appends
  cases returned
  cases ok
  exact ⟨snapshots, mac, chain, persisted, named, appended, rfl, rfl⟩

/-- A compaction leaves a chain of one block, which names the new snapshot. -/
theorem compact_stored (ideal : C.Ideal) (h : Stored C ser init key hist onDisk [] j)
    (ok : compact C ser j = .ok (j', n)) :
    ∃ hist', Stored C ser init key hist' [] [] j' ∧ j'.state = j.state ∧
      j'.snapshots.snapshot.state = j.state ∧ j'.currEditGroup = j.currEditGroup ∧
      j'.chain.start = hist.length ∧ hist'.length = hist.length + 1 := by
  have lt := h.start_lt
  obtain ⟨snapshots, mac, chain, persisted, named, appended, rfl, -⟩ :=
    compact_cases (by rw [h.chain.stop_eq]; exact lt) ok
  obtain ⟨inv, latest, -, -⟩ := persist_inv ideal h.snapshots persisted
  rw [inv.latestMac_eq] at named
  cases named
  obtain ⟨chainInv, start, key_eq⟩ := append_inv h.chain (.inl lt) appended
  have stop : chain.stop = hist.length + 1 := by simp [chainInv.stop_eq]
  have long : 1 < chain.len := by unfold len; omega
  have start' : (trimmed chain).start = hist.length := by rw [(trimmed_start long).1, stop]; rfl
  obtain ⟨trimInv, trimKey⟩ := trimmed_inv chainInv long
  refine ⟨_, ⟨trimInv, trimKey.trans (key_eq.trans h.key_eq), ?_, inv, ?_, ⟨[], ?_, rfl⟩, rfl,
    h.capacity⟩, rfl, by rw [latest], rfl, start', by simp⟩
  · simpa using h.drawn.draw
  · simp only [start', latest, h.chain.stop_eq]
  · simp [start', h.buf, encode, mac]

theorem expect_ok {α : Type} {msg : String} {x : Res α} {a : α} : expect msg x = .ok a ↔ x = .ok a := by
  rcases x with (_ | _) | _ <;> simp [expect, panicWith]

theorem format_stored (ideal : C.Ideal) {disk : RawDisk Iv Mac} {keys : Fin 2 → Key}
    {initState : S} {stateMaxNbytes : Nat} {policy : P}
    (ok : format C ser disk keys key rng initState stateMaxNbytes policy = .ok j) :
    ∃ hist, Stored C ser (disk.carve (snapshotBlocks stateMaxNbytes)).journalArea key hist [] [] j ∧
      j.state = initState ∧ j.snapshots.snapshot.state = initState ∧ j.currEditGroup = some [] ∧
      hist.length = 1 ∧ j.chain.start = 0 := by
  obtain ⟨snapshots, created, ok⟩ := bind_ok.mp ok
  obtain ⟨inv, latest, size, room⟩ := create_inv ideal created
  obtain ⟨mac, named, ok⟩ := bind_ok.mp ok
  rw [inv.latestMac_eq] at named
  cases named
  obtain ⟨writeBuf, written, ok⟩ := bind_ok.mp ok
  obtain ⟨-, written⟩ := guard_ok.mp written
  cases written
  obtain ⟨chain, appended, ok⟩ := bind_ok.mp ok
  cases ok
  rw [size] at appended
  have pos : 0 < (disk.carve (snapshotBlocks stateMaxNbytes)).journalArea.length := by
    rw [disk.journal]; omega
  obtain ⟨chainInv, start, key_eq⟩ := append_inv (ChainInv.new pos) (.inr rfl) appended
  refine ⟨_, ⟨chainInv, key_eq, ?_, inv, ?_, ⟨[], ?_, rfl⟩, rfl, rfl⟩, rfl, by rw [latest], rfl, rfl, start⟩
  · simpa using DrawnBefore.draw ⟨[], rfl, nodup_nil, by simp⟩
  · rw [latest]; exact start
  · simp [start, new, WriteBuf.new, mac]

variable [Edit E S]

/-- The disk and the write buffer together determine the state. -/
def Consistent (onDisk inBuf : List (List E)) (j : EditJournal Key Iv Mac E S P) : Prop :=
  j.state = applyGroups (onDisk ++ inBuf) j.snapshots.snapshot.state

section

variable (ideal : C.Ideal) (rt : ser.RoundTrips) (h : Stored C ser init key hist onDisk inBuf j)
  (consistent : Consistent onDisk inBuf j)
include ideal rt h consistent

/-- After the write buffer was appended, all groups are on disk. -/
theorem appendWriteBufToJournal_stored (ok : appendWriteBufToJournal C ser j = .ok j') :
    ∃ hist' onDisk', Stored C ser init key hist' onDisk' [] j' ∧ Consistent onDisk' [] j' ∧
      j'.state = j.state ∧ j'.currEditGroup = j.currEditGroup ∧
      j'.chain.len ≤ j.chain.len + 1 := by
  have len := h.chain.stop_eq
  unfold appendWriteBufToJournal at ok
  split at ok
  next empty =>
    cases ok
    have none : inBuf = [] := by
      have := (encode_eq_nil rt).mp (h.buf.symm.trans empty)
      simpa using this
    subst none
    exact ⟨hist, onDisk, h, consistent, rfl, rfl, Nat.le_succ _⟩
  next =>
    obtain ⟨j1, appended, ok⟩ := bind_ok.mp ok
    obtain ⟨stored, state, snapshots, group, start⟩ := appendBuf_stored h (expect_ok.mp appended)
    split at ok
    next =>
      obtain ⟨⟨j2, compacted⟩, compacts, ok⟩ := bind_ok.mp ok
      obtain ⟨policy, -, ok⟩ := bind_ok.mp ok
      cases ok
      obtain ⟨hist', stored', state', latest, group', start', len'⟩ :=
        compact_stored ideal stored (expect_ok.mp compacts)
      refine ⟨hist', [], stored'.congr rfl rfl rfl rfl, ?_, state'.trans state, group'.trans group, ?_⟩
      · exact state'.trans latest.symm
      · simp only [CryptoChain.len, stored'.chain.stop_eq]
        omega
    next =>
      cases ok
      refine ⟨_, _, stored, ?_, state, group, ?_⟩
      · rw [Consistent, append_nil, snapshots, state]
        exact consistent
      · simp only [CryptoChain.len, stored.chain.stop_eq, length_append, length_singleton]
        omega

/-- A record that was written is in the buffer, behind the groups that were there or after these
went to disk. -/
theorem write_stored
    {group : List E} (ok : write C ser j (.edit group) = .ok j') :
    ∃ hist' onDisk' inBuf', Stored C ser init key hist' onDisk' (inBuf' ++ [group]) j' ∧
      Consistent onDisk' inBuf' j' ∧ j'.state = j.state ∧
      j'.currEditGroup = j.currEditGroup := by
  -- writing the record to a buffer with room
  have push : ∀ {hist onDisk inBuf} {j : EditJournal Key Iv Mac E S P} {writeBuf : WriteBuf},
      Stored C ser init key hist onDisk inBuf j →
      j.writeBuf.write ser (.edit group) = .ok writeBuf →
      Stored C ser init key hist onDisk (inBuf ++ [group]) { j with writeBuf := writeBuf } := by
    intro hist onDisk inBuf j writeBuf h written
    obtain ⟨-, written⟩ := guard_ok.mp written
    cases written
    exact ⟨h.chain, h.key_eq, h.drawn, h.snapshots, h.start_eq, h.blocks, by simp [h.buf, encode], h.capacity⟩
  unfold write at ok
  split at ok
  next writeBuf written =>
    cases ok
    exact ⟨hist, onDisk, inBuf, push h written, consistent, rfl, rfl⟩
  next =>
    obtain ⟨j1, appended, ok⟩ := bind_ok.mp ok
    obtain ⟨hist', onDisk', stored, consistent', state, group', -⟩ :=
      appendWriteBufToJournal_stored ideal rt h consistent appended
    split at ok
    next writeBuf written =>
      cases ok
      exact ⟨hist', onDisk', [], push stored written, consistent', state, group'⟩
    next => cases ok

end

variable [DecidableEq Mac]

omit [CompactPolicy P E] in
/-- Once the snapshots are recovered, the rest of the recovery gives back the chain, and the state
that the disk determines. The ring must still hold all live blocks. -/
theorem Stored.recover_of_snapshots (ideal : C.Ideal) (rt : ser.RoundTrips)
    (h : Stored C ser init key hist onDisk inBuf j) (foreign : ∀ b ∈ init, b.Foreign C key)
    (within : j.chain.len ≤ init.length) (enough : init.length < fuel)
    {disk : JournalDisk Iv Mac} {info : EditJournalMeta Key}
    (managed : SnapshotManager.recover C ser disk info = .ok j.snapshots)
    (area : disk.journalArea = j.chain.log.storage) (areaKey : info.journalAreaKey = key)
    (policy : P) (rng : Nat) :
    recover C ser fuel disk info policy rng = .ok
      { state := applyGroups onDisk j.snapshots.snapshot.state
        chain := j.chain
        snapshots := j.snapshots
        policy := policy
        currEditGroup := some []
        writeBuf := WriteBuf.new availBlockSize
        rng := rng } := by
  have lt := h.start_lt
  have len : hist.length ≤ j.chain.start + init.length := by
    unfold len at within; rw [h.chain.stop_eq] at within; omega
  obtain ⟨chunks, blocks, flat⟩ := h.blocks
  have yields := h.chain.recovery_yields ideal (by rw [h.key_eq]; exact foreign) lt len
  have few : ((hist.drop j.chain.start).map Prod.snd).length < fuel := by
    simp only [length_map, length_drop]; omega
  have records : ((hist.drop j.chain.start).map Prod.snd).flatMap (recordSlice ser) =
      .version j.snapshots.mac :: onDisk.map .edit := by
    have version := recordSlice_encode rt [.version j.snapshots.mac]
    simp only [encode, flatMap_cons, flatMap_nil, append_nil] at version
    rw [blocks, flatMap_cons, version, flatMap_map, ← flat]
    simp [recordSlice_encode rt, flatMap]
  have replayed : replay C ser j.snapshots.mac fuel _ (j.snapshots.snapshot.state, false) = _ :=
    replay_of_yields yields few _
  rw [records, foldl_cons, applyRecord, decide_eq_true rfl, Bool.or_true, foldl_applyRecord_edits] at replayed
  unfold recover
  rw [managed]
  simp only [bind, Except.bind, h.snapshots.latestMac_eq, ← h.start_eq]
  rw [← mac, area, areaKey, ← h.key_eq, replayed]
  -- the chain that was recovered is the chain that was there
  have log : (BlockRing.new j.chain.log.storage).setCursor hist.length = j.chain.log := by
    simp [BlockRing.new, BlockRing.setCursor, ← h.chain.cursor]
  simp only [Recovery.toChain, log, ← h.chain.macs_eq]
  rw [← h.chain.stop_eq]

omit [CompactPolicy P E] in
/-- Recovering from the disk of a journal gives the journal back, with the state that the disk
determines. -/
theorem Stored.recover_eq (ideal : C.Ideal) (rt : ser.RoundTrips)
    (h : Stored C ser init key hist onDisk inBuf j) (foreign : ∀ b ∈ init, b.Foreign C key)
    (within : j.chain.len ≤ init.length) (enough : init.length < fuel) (policy : P)
    (rng : Nat) :
    recover C ser fuel j.disk j.info policy rng = .ok
      { state := applyGroups onDisk j.snapshots.snapshot.state
        chain := j.chain
        snapshots := j.snapshots
        policy := policy
        currEditGroup := some []
        writeBuf := WriteBuf.new availBlockSize
        rng := rng } :=
  h.recover_of_snapshots ideal rt foreign within enough
    (h.snapshots.recover_eq ideal rt (fun _ => rfl) (fun _ => rfl) (h.snapshots.size 0)) rfl h.key_eq
    policy rng

end EditJournal

end OmegaOsx.MlsDisk
