import OmegaOsx.Lib.Run
import OmegaOsx.MlsDisk.JournalInvariant
import OmegaOsx.MlsDisk.Symbolic

/-!
# Recovery of an edit journal after a flush

`committed` says which edit groups a sequence of calls commits; it knows nothing of blocks, buffers
or snapshots.
-/

namespace OmegaOsx.MlsDisk.EditJournal

open Symbolic

variable {Key Iv Mac E S P : Type}

/-! ## Which groups are committed -/

/-- One call, for a caller that only sees its own pending edits: the groups the call commits, and
the edits pending after it. -/
def specStep (pending : List E) : Op E → List (List E) × List E
  | .add edit => ([], pending ++ [edit])
  | .commit => (if pending.isEmpty then [] else [pending], [])
  | .abort => ([], [])
  | .flush => ([], pending)

/-- The groups that a sequence of calls commits. -/
def committed : List E → List (Op E) → List (List E)
  | _, [] => []
  | pending, op :: ops => (specStep pending op).1 ++ committed (specStep pending op).2 ops

/-- The edits added since the last commit or abort. -/
def pending (j : EditJournal Key Iv Mac E S P) : List E := j.currEditGroup.getD []

/-! ## Runs of a journal -/

variable [Inhabited Mac] [Edit E S] [CompactPolicy P E]
variable (C : Crypto Key Iv Mac) (ser : Postcard E S Mac)

/-- A call that returns and leaves no more live blocks than the ring has. -/
def StepWithin (j : EditJournal Key Iv Mac E S P) (op : Op E) (j' : EditJournal Key Iv Mac E S P) :
    Prop :=
  j.exec C ser op = .ok j' ∧ j'.chain.len ≤ j'.chain.log.storage.length

/-- The disk and the write buffer account for the state of the journal. -/
def Sound (init : List (ChainBlock Iv Mac)) (key : Key)
    (j : EditJournal Key Iv Mac E S P) : Prop :=
  ∃ hist onDisk inBuf, Stored C ser init key hist onDisk inBuf j ∧ Consistent onDisk inBuf j

variable {C ser} {init : List (ChainBlock Iv Mac)} {key : Key}
  {j j' : EditJournal Key Iv Mac E S P}

theorem applyGroups_append (gs gs' : List (List E)) (s : S) :
    applyGroups (gs ++ gs') s = applyGroups gs' (applyGroups gs s) :=
  List.foldl_append

section

variable (ideal : C.Ideal) (rt : ser.RoundTrips) (h : Sound C ser init key j)
include ideal rt h

/-- A flush leaves nothing in the write buffer. -/
theorem flush_stored (ok : j.flush C ser = .ok j') :
    ∃ hist onDisk, Stored C ser init key hist onDisk [] j' ∧ Consistent onDisk [] j' ∧
      j'.state = j.state ∧ j'.pending = j.pending ∧ j'.chain.len ≤ j.chain.len + 1 := by
  obtain ⟨hist, onDisk, inBuf, stored, consistent⟩ := h
  obtain ⟨hist', onDisk', stored', consistent', state, group, len⟩ :=
    appendWriteBufToJournal_stored ideal rt stored consistent ok
  exact ⟨hist', onDisk', stored', consistent', state, by rw [pending, group, pending], len⟩

theorem commit_sound (ok : j.commit C ser = .ok j') :
    Sound C ser init key j' ∧ j'.state = applyGroups (specStep j.pending .commit).1 j.state ∧ j'.pending = [] := by
  obtain ⟨hist, onDisk, inBuf, stored, consistent⟩ := h
  unfold commit at ok
  split at ok
  next none =>
    cases ok
    exact ⟨⟨hist, onDisk, inBuf, stored, consistent⟩, by simp [pending, none, specStep, applyGroups],
      by simp [pending, none]⟩
  next empty =>
    cases ok
    exact ⟨⟨hist, onDisk, inBuf, stored.congr rfl rfl rfl rfl, consistent⟩,
      by simp [pending, empty, specStep, applyGroups], rfl⟩
  next e es some =>
    obtain ⟨j1, written, ok⟩ := bind_ok.mp ok
    cases ok
    obtain ⟨hist', onDisk', inBuf', stored', consistent', state, group⟩ :=
      write_stored ideal rt (j := { j with currEditGroup := none }) (stored.congr rfl rfl rfl rfl) consistent written
    refine ⟨⟨hist', onDisk', inBuf' ++ [e :: es], stored'.congr rfl rfl rfl rfl, ?_⟩, ?_, ?_⟩
    · rw [Consistent, ← List.append_assoc, applyGroups_append]
      exact congrArg (applyGroup (e :: es)) consistent'
    · simp [pending, some, specStep, applyGroups, state]
    · simp [pending, group]

/-- What one call does to the state and to the pending edits. -/
theorem exec_sound
    {op : Op E} (ok : j.exec C ser op = .ok j') :
    Sound C ser init key j' ∧ j'.state = applyGroups (specStep j.pending op).1 j.state ∧
      j'.pending = (specStep j.pending op).2 := by
  cases op with
  | add edit =>
    cases ok
    obtain ⟨hist, onDisk, inBuf, stored, consistent⟩ := h
    exact ⟨⟨hist, onDisk, inBuf, stored.congr rfl rfl rfl rfl, consistent⟩, rfl, rfl⟩
  | commit => exact commit_sound ideal rt h ok
  | abort =>
    cases ok
    obtain ⟨hist, onDisk, inBuf, stored, consistent⟩ := h
    refine ⟨⟨hist, onDisk, inBuf, stored.congr rfl rfl rfl rfl, consistent⟩, rfl, ?_⟩
    cases group : j.currEditGroup <;> simp [pending, abort, group, specStep]
  | flush =>
    obtain ⟨hist, onDisk, stored, consistent, state, group, -⟩ := flush_stored ideal rt h ok
    exact ⟨⟨hist, onDisk, [], stored, consistent⟩, state, group⟩

end

theorem run_sound (ideal : C.Ideal) (rt : ser.RoundTrips) {ops : List (Op E)}
    (run : Labelled.Run (StepWithin C ser) j ops j') (h : Sound C ser init key j) :
    Sound C ser init key j' ∧ j'.state = applyGroups (committed j.pending ops) j.state := by
  induction run with
  | nil => exact ⟨h, rfl⟩
  | cons first _ ih =>
    obtain ⟨sound, state, pending⟩ := exec_sound ideal rt h first.1
    obtain ⟨sound', state'⟩ := ih sound
    exact ⟨sound', by rw [state', state, pending, committed, applyGroups_append]⟩

theorem format_sound (ideal : C.Ideal) {disk : RawDisk Iv Mac} {keys : Fin 2 → Key} {initState : S}
    {stateMaxNbytes rng : Nat} {policy : P}
    (ok : format C ser disk keys key rng initState stateMaxNbytes policy = .ok j) :
    Sound C ser (disk.carve (snapshotBlocks stateMaxNbytes)).journalArea key j ∧
      j.state = initState ∧ j.pending = [] := by
  obtain ⟨hist, stored, state, snapshot, group, -⟩ := format_stored ideal ok
  exact ⟨⟨hist, [], [], stored, state.trans snapshot.symm⟩, state, by simp [pending, group]⟩

/-- Recovering from the disk as a final flush left it gives the initial state with the committed
groups applied in commit order. The journal area first held no block of this journal, and no call
left more live blocks than the ring has. -/
theorem recover_after_flush [DecidableEq Mac] (ideal : C.Ideal) (rt : ser.RoundTrips)
    {disk : RawDisk Iv Mac} {keys : Fin 2 → Key} {initState : S} {stateMaxNbytes rng : Nat} {policy : P}
    {j0 : EditJournal Key Iv Mac E S P} {ops : List (Op E)}
    (foreign : ∀ b ∈ (disk.carve (snapshotBlocks stateMaxNbytes)).journalArea, b.Foreign C key)
    (formatted : format C ser disk keys key rng initState stateMaxNbytes policy = .ok j0)
    (run : Labelled.Run (StepWithin C ser) j0 ops j) (flushed : StepWithin C ser j .flush j')
    (policy' : P) (rng' : Nat) {fuel : Nat} (enough : j'.chain.log.storage.length < fuel) :
    ∃ r, recover C ser fuel j'.disk j'.info policy' rng' = .ok r ∧
      r.state = applyGroups (committed [] ops) initState := by
  obtain ⟨sound, state0, pending0⟩ := format_sound ideal formatted
  obtain ⟨sound, state⟩ := run_sound ideal rt run sound
  obtain ⟨hist, onDisk, stored, consistent, state', -⟩ := flush_stored ideal rt sound flushed.1
  have ring := stored.chain.ring.length_eq
  refine ⟨_, stored.recover_eq ideal rt foreign (ring ▸ flushed.2) (ring ▸ enough) policy' rng', ?_⟩
  rw [Consistent, List.append_nil] at consistent
  exact consistent.symm.trans (by rw [state', state, state0, pending0])

/-! ## A run with two compactions -/

/-- Runs the calls in order, as long as they stay within the ring. -/
def runWithin (C : Crypto Key Iv Mac) (ser : Postcard E S Mac) :
    EditJournal Key Iv Mac E S P → List (Op E) → Res (EditJournal Key Iv Mac E S P)
  | j, [] => .ok j
  | j, op :: ops => do
    let j' ← exec C ser j op
    if j'.chain.log.storage.length < j'.chain.len then panicWith "more live blocks than the ring has"
    else runWithin C ser j' ops

theorem run_of_runWithin {ops : List (Op E)} (ok : runWithin C ser j ops = .ok j') :
    Labelled.Run (StepWithin C ser) j ops j' := by
  induction ops generalizing j with
  | nil =>
    cases ok
    exact .nil _
  | cons op ops ih =>
    obtain ⟨j1, executed, ok⟩ := bind_ok.mp ok
    obtain ⟨within, ok⟩ := guard_ok.mp ok
    exact .cons ⟨executed, Nat.le_of_not_lt within⟩ (ih ok)

/-- A journal with two journal blocks. -/
def twoBlocks : Res (EditJournal UInt8 Nat Bytes UInt8 Bytes DefaultCompactPolicy) :=
  format Symbolic.cipher Symbolic.ser (Symbolic.blankDisk 4) ![1, 2] 3 0 [] 100 ⟨0, 2⟩

theorem recover_after_flush_twoBlocks :
    ∃ j0 j j' r, twoBlocks = .ok j0 ∧ Labelled.Run (StepWithin Symbolic.cipher Symbolic.ser) j0
        [.add 7, .commit, .flush, .add 9, .abort, .add 8, .commit] j ∧
      StepWithin Symbolic.cipher Symbolic.ser j .flush j' ∧
      recover Symbolic.cipher Symbolic.ser (j'.chain.log.storage.length + 1) j'.disk j'.info
        (⟨0, 2⟩ : DefaultCompactPolicy) 9 = .ok r ∧
      r.state = [7, 8] := by
  obtain ⟨j', ok⟩ : ∃ j', (do
      let j0 ← twoBlocks
      let j ← runWithin cipher ser j0 [.add 7, .commit, .flush, .add 9, .abort, .add 8, .commit]
      runWithin cipher ser j [.flush]) = .ok j' :=
    exists_ok (by decide +kernel)
  obtain ⟨j0, formatted, ok⟩ := bind_ok.mp ok
  obtain ⟨j, ran, ok⟩ := bind_ok.mp ok
  have run := run_of_runWithin ran
  obtain - | ⟨flushed, ⟨⟩⟩ := run_of_runWithin ok
  obtain ⟨r, recovered, state⟩ := recover_after_flush cipher_ideal
    ser_roundTrips (blank_foreign 3) formatted run flushed ⟨0, 2⟩ 9
    (Nat.lt_succ_self _)
  exact ⟨j0, j, j', r, formatted, run, flushed, recovered, state⟩

end OmegaOsx.MlsDisk.EditJournal
