import OmegaOsx.MlsDisk.RawLogStore

/-!
# The single-writer rule of the raw log store

A transaction writes to a log while its edit has a tail for it, from the opening or the creation of
the log until the transaction ends. The store keeps the rule with its write set: a log in the set
cannot be opened for appending. But the set follows the handles and not the transactions: dropping
an appendable handle takes the log out of the set, and so does a deletion by any transaction.
-/

namespace OmegaOsx.MlsDisk.RawLogStore

open RawLogStoreEdit Except Finset Table Option

variable {β : Type} (s : RawLogStore β)

/-- The ongoing transaction `tid` has a create or an append edit for the log. -/
def WritesTo (tid : Tid) (logId : RawLogId) : Prop :=
  ∃ edit tail, s.edits.lookup tid = some edit ∧ edit.tail? logId = some tail

/-- An appendable handle is closed only when no ongoing transaction writes to its log, and a
transaction deletes a log only when no other one writes to it. -/
def Careful : RawLogOp β → Prop
  | .drop _ h => ∀ log, s.handles.lookup h = some log → log.canAppend = true →
      ∀ tid, ¬ s.WritesTo tid log.logId
  | .delete tid logId => ∀ tid', s.WritesTo tid' logId → tid' = tid
  | _ => True

def CarefulStep (op : RawLogOp β) (t : RawLogStore β) : Prop :=
  s.Careful op ∧ s.exec op = .ok t

/-- Every tail is of a log in the write set, and no two transactions have one for the same log. -/
structure Guarded (s : RawLogStore β) : Prop where
  inSet : ∀ {tid logId}, s.WritesTo tid logId → logId ∈ s.writeSet
  unique : ∀ {tid tid' logId}, s.WritesTo tid logId → s.WritesTo tid' logId → tid = tid'

/-! ## Frames: what the handlers leave alone -/

/-- `t` has the edits and the write set of `s`. -/
def SameWriters (s t : RawLogStore β) : Prop := t.edits = s.edits ∧ t.writeSet = s.writeSet

theorem SameWriters.refl : SameWriters s s := ⟨rfl, rfl⟩

variable {s t : RawLogStore β}

theorem SameWriters.trans {u : RawLogStore β} (h : SameWriters s t) (h' : SameWriters t u) :
    SameWriters s u := ⟨h'.1.trans h.1, h'.2.trans h.2⟩

variable {tid : Tid}

theorem deallocChunks_same {ids : List ChunkId} (run : s.deallocChunks tid ids = .ok t) : SameWriters s t := by
  obtain ⟨chunks, -, eq⟩ := bind_ok.mp run
  cases eq
  exact .refl s

theorem addLazyDelete_same (s : RawLogStore β) (logId : RawLogId) : SameWriters s (s.addLazyDelete logId) := by
  unfold addLazyDelete
  split
  · split
    · exact .refl s
    · exact ⟨rfl, rfl⟩
  · exact .refl s

theorem addLazyDeletes_same (s : RawLogStore β) (logIds : List RawLogId) :
    SameWriters s (logIds.foldl addLazyDelete s) := by
  induction logIds generalizing s with
  | nil => exact .refl s
  | cons logId logIds ih => exact (addLazyDelete_same s logId).trans (ih _)

variable {logId : RawLogId}

theorem doLazyDelete_same (run : doLazyDelete tid s logId = .ok t) : SameWriters s t := by
  unfold doLazyDelete at run
  split at run
  · cases run
    exact .refl s
  dsimp only at run
  split at run
  · cases run
    exact ⟨rfl, rfl⟩
  · have start : SameWriters s { s with lazyDeletes := s.lazyDeletes.erase logId } := ⟨rfl, rfl⟩
    exact start.trans (deallocChunks_same run)

theorem doLazyDeletes_same {logIds : List RawLogId} (run : logIds.foldlM (doLazyDelete tid) s = .ok t) :
    SameWriters s t := by
  induction logIds generalizing s with
  | nil =>
    cases run
    exact .refl _
  | cons logId logIds ih =>
    obtain ⟨mid, first, rest⟩ := bind_ok.mp run
    exact (doLazyDelete_same first).trans (ih rest)

theorem onCommit_same (run : s.onCommit tid = .ok t) : SameWriters s t := by
  obtain ⟨edit, -, run⟩ := bind_ok.mp run
  obtain ⟨persistent, -, run⟩ := bind_ok.mp run
  have added := addLazyDeletes_same { s with persistent } edit.iterCreatedLogs
  have start : SameWriters s { s with persistent } := ⟨rfl, rfl⟩
  exact start.trans (added.trans (doLazyDeletes_same run))

/-! ## The invariant -/

variable {edit : RawLogStoreEdit}

theorem currentEdit_ok (h : s.currentEdit tid = .ok edit) : edit = (s.edits.lookup tid).getD ∅ := by
  obtain ⟨-, -, eq⟩ := bind_ok.mp h
  exact (ok.inj eq).symm

variable {tail : RawLogTail} {l' : RawLogId} {tid' : Tid} {h : Nat}

/-- A tail in the data of the current transaction is one that it writes to. -/
theorem writesTo_of_current (h : s.currentEdit tid = .ok edit)
    (found : edit.tail? logId = some tail) : s.WritesTo tid logId := by
  cases currentEdit_ok h
  cases e : s.edits.lookup tid with
  | none =>
    rw [e] at found
    cases found
  | some edit => exact ⟨edit, tail, e, by rw [e] at found; exact found⟩

variable {l : RawLogId}

theorem tail?_insert {e : RawLogEdit} : tail? (edit.insert l e) l' =
      if l' = l then (match e with | .create tail | .append tail => some tail | .delete => none)
      else edit.tail? l' := by
  unfold tail?
  rw [lookup_insert_ite]
  by_cases same : l' = l
  · rw [if_pos same, if_pos same]
    cases e <;> rfl
  · rw [if_neg same, if_neg same]

/-- Replacing a tail makes no new one. -/
theorem tail?_of_setTail {tail' : RawLogTail} (h : (edit.setTail l tail).tail? l' = some tail') :
    ∃ old, edit.tail? l' = some old := by
  unfold setTail at h
  split at h
  · next old e =>
    rw [tail?_insert] at h
    split at h
    · next same => exact ⟨old, by unfold tail?; rw [same, e]⟩
    · exact ⟨tail', h⟩
  · next old e =>
    rw [tail?_insert] at h
    split at h
    · next same => exact ⟨old, by unfold tail?; rw [same, e]⟩
    · exact ⟨tail', h⟩
  · exact ⟨tail', h⟩
  · exact ⟨tail', h⟩

theorem lookup_setEdit :
    (s.setEdit tid edit).edits.lookup tid' = if tid' = tid then some edit else s.edits.lookup tid' :=
  lookup_insert_ite

theorem writesTo_setEdit (h : (s.setEdit tid edit).WritesTo tid' l) :
    tid' = tid ∧ (∃ tail, edit.tail? l = some tail) ∨ s.WritesTo tid' l := by
  obtain ⟨e, tail, found, has⟩ := h
  rw [lookup_setEdit] at found
  split at found
  · next same =>
    cases found
    exact .inl ⟨same, tail, has⟩
  · exact .inr ⟨e, tail, found, has⟩

theorem SameWriters.writesTo (same : SameWriters s t) (h : t.WritesTo tid l) : s.WritesTo tid l := by
  obtain ⟨edit, tail, found, has⟩ := h
  exact ⟨edit, tail, same.1 ▸ found, has⟩

theorem handle_ok {log : RawLog} (found : s.handle h = .ok log) : s.handles.lookup h = some log := by
  unfold handle at found
  split at found
  · next e => exact (ok.inj found) ▸ e
  · cases found

/-! ### What the operations do -/

theorem createLog_ok (run : s.createLog tid = .ok t) :
    s.nextFreeLogId ∉ s.writeSet ∧ ∃ edit, s.currentEdit tid = .ok edit ∧
      t = ({ s with
          nextFreeLogId := s.nextFreeLogId + 1
          writeSet := insert s.nextFreeLogId s.writeSet }.setEdit tid
        (edit.createLog s.nextFreeLogId)).addHandle ⟨s.nextFreeLogId, none, none, 0, true⟩ := by
  obtain ⟨_, next, run⟩ := bind_ok.mp run
  obtain ⟨-, eq⟩ := ite_ok.mp next
  cases eq
  obtain ⟨absent, run⟩ := guard_ok.mp run
  obtain ⟨edit, cur, eq⟩ := bind_ok.mp run
  exact ⟨absent, edit, cur, (ok.inj eq).symm⟩

/-- Opening a log for appending makes an append edit for it, unless there is one. -/
theorem prepareAppend_ok {entry : RawLogEntry} (run : s.prepareAppend tid logId entry = .ok t) :
    logId ∉ s.writeSet ∧ ∃ edit edit', s.currentEdit tid = .ok edit ∧
      t = { s with writeSet := insert logId s.writeSet }.setEdit tid edit' ∧
      (edit' = edit ∨ ∃ tail, edit.lookup logId = none ∧ RawLogTail.fromHead entry.head = .ok tail ∧
        edit' = edit.insert logId (.append tail)) := by
  obtain ⟨mid, add, run⟩ := bind_ok.mp run
  obtain ⟨edit, cur, run⟩ := bind_ok.mp run
  obtain ⟨edit', opened, eq⟩ := bind_ok.mp run
  cases eq
  obtain ⟨absent, eq⟩ := guard_ok.mp add
  cases eq
  refine ⟨absent, edit, edit', cur, rfl, ?_⟩
  unfold RawLogStoreEdit.openLog at opened
  split at opened
  · next none_ =>
    obtain ⟨tail, made, eq⟩ := bind_ok.mp opened
    exact .inr ⟨tail, none_, made, (ok.inj eq).symm⟩
  · cases opened
  · exact .inl (ok.inj opened).symm
  · cases opened

/-- A deletion gives back the chunks of the tail that it discards. -/
theorem deleteLog_ok (run : s.deleteLog tid logId = .ok t) :
    ∃ edit chunks, s.currentEdit tid = .ok edit ∧
      (edit.tail? logId = none ∧ chunks = s.chunks ∨ ∃ tail, edit.tail? logId = some tail ∧
        s.chunks.deallocBatch tid tail.chunks = .ok chunks) ∧
      t = removeFromWriteSet { s.setEdit tid (edit.insert logId .delete) with chunks } logId := by
  obtain ⟨edit, cur, run⟩ := bind_ok.mp run
  obtain ⟨⟨tailChunks, edit'⟩, deleted, run⟩ := bind_ok.mp run
  obtain ⟨mid, release, eq⟩ := bind_ok.mp run
  cases eq
  obtain ⟨rfl, rfl⟩ : edit' = edit.insert logId .delete ∧
      tailChunks = (edit.tail? logId).map (·.chunks) := by
    unfold RawLogStoreEdit.deleteLog at deleted
    unfold tail?
    split at deleted <;> cases deleted <;> next e => exact ⟨rfl, by rw [e]; rfl⟩
  cases has : edit.tail? logId with
  | none =>
    rw [has] at release
    cases release
    exact ⟨edit, s.chunks, cur, .inl ⟨has, rfl⟩, rfl⟩
  | some tail =>
    rw [has] at release
    obtain ⟨chunks, freed, eq⟩ := bind_ok.mp release
    cases eq
    exact ⟨edit, chunks, cur, .inr ⟨tail, has, freed⟩, rfl⟩

theorem addHandle_found {log log' : RawLog} (found : (s.addHandle log).handles.lookup h = some log') :
    h = s.nextHandle ∧ log' = log ∨ s.handles.lookup h = some log' := by
  unfold addHandle at found
  rw [lookup_insert_ite] at found
  split at found
  · next same => exact .inl ⟨same, (some.inj found).symm⟩
  · exact .inr found

/-- A successful append is to a log that the transaction writes to; it only replaces its tail. -/
theorem append_writers {buf : List β} {pos : BlockId} (run : s.append tid h buf = .ok (pos, t)) :
    (∃ log, s.handles.lookup h = some log ∧ s.WritesTo tid log.logId) ∧
      (∀ tid' l, t.WritesTo tid' l → s.WritesTo tid' l) ∧ t.writeSet = s.writeSet := by
  obtain ⟨log, found, run⟩ := bind_ok.mp run
  split at run
  · obtain ⟨edit, cur, run⟩ := bind_ok.mp run
    split at run
    · cases run
    · next tail has =>
      obtain ⟨mid, act, eq⟩ := bind_ok.mp run
      cases eq
      obtain ⟨needed, -, act⟩ := bind_ok.mp act
      obtain ⟨⟨newChunks, chunks⟩, -, act⟩ := bind_ok.mp act
      obtain ⟨blocks, -, act⟩ := bind_ok.mp act
      obtain ⟨numBlocks, -, eq⟩ := bind_ok.mp act
      cases eq
      refine ⟨⟨log, handle_ok found, writesTo_of_current cur has⟩, fun tid' l h => ?_, rfl⟩
      obtain ⟨e, tail', at_tid, has'⟩ := h
      rcases writesTo_setEdit ⟨e, tail', at_tid, has'⟩ with ⟨rfl, tail'', has''⟩ | old
      · obtain ⟨old, was⟩ := tail?_of_setTail has''
        exact writesTo_of_current cur was
      · exact old
  · cases run

namespace Guarded

section

variable (guarded : Guarded s)

include guarded

/-- The tails of the new state are old ones, except that `tid` may write to a log in addition that
nobody wrote to. -/
theorem extend (tid : Tid) (logId : RawLogId)
    (tails : ∀ tid' l, t.WritesTo tid' l → s.WritesTo tid' l ∨ tid' = tid ∧ l = logId)
    (free : ∀ tid', ¬ s.WritesTo tid' logId) (inSet : ∀ l, l ∈ s.writeSet ∨ l = logId → l ∈ t.writeSet) :
    Guarded t where
  inSet h := inSet _ ((tails _ _ h).imp guarded.inSet And.right)
  unique h h' := by
    rcases tails _ _ h with old | ⟨rfl, rfl⟩ <;> rcases tails _ _ h' with old' | ⟨rfl, same⟩
    · exact guarded.unique old old'
    · exact absurd (same ▸ old) (free _)
    · exact absurd old' (free _)
    · rfl

/-- Tails may go, and logs that nobody writes to may leave the write set. -/
theorem shrink (tails : ∀ tid l, t.WritesTo tid l → s.WritesTo tid l)
    (inSet : ∀ tid l, t.WritesTo tid l → l ∈ s.writeSet → l ∈ t.writeSet) : Guarded t where
  inSet h := inSet _ _ h (guarded.inSet (tails _ _ h))
  unique h h' := guarded.unique (tails _ _ h) (tails _ _ h')

theorem createLog (run : s.createLog tid = .ok t) : Guarded t := by
  obtain ⟨absent, edit, cur, rfl⟩ := createLog_ok run
  refine guarded.extend tid s.nextFreeLogId (fun tid' l h => ?_)
    (fun tid' h => absent (guarded.inSet h)) fun l h => mem_insert.mpr h.symm
  rcases writesTo_setEdit h with ⟨rfl, tail', has'⟩ | old
  · rw [RawLogStoreEdit.createLog, tail?_insert] at has'
    split at has'
    · next same => exact .inr ⟨rfl, same⟩
    · exact .inl (writesTo_of_current cur has')
  · exact .inl old

theorem prepareAppend {entry : RawLogEntry} (run : s.prepareAppend tid logId entry = .ok t) : Guarded t := by
  obtain ⟨absent, edit, edit', cur, rfl, made⟩ := prepareAppend_ok run
  refine guarded.extend tid logId (fun tid' l h => ?_)
    (fun tid' h => absent (guarded.inSet h)) fun l h => mem_insert.mpr h.symm
  rcases writesTo_setEdit h with ⟨rfl, tail', has'⟩ | old
  · rcases made with rfl | ⟨tail, -, -, rfl⟩
    · exact .inl (writesTo_of_current cur has')
    rw [tail?_insert] at has'
    split at has'
    · next same => exact .inr ⟨rfl, same⟩
    · exact .inl (writesTo_of_current cur has')
  · exact .inl old

theorem deleteLog (careful : ∀ tid', s.WritesTo tid' logId → tid' = tid) (run : s.deleteLog tid logId = .ok t) :
    Guarded t := by
  obtain ⟨edit, chunks, cur, -, rfl⟩ := deleteLog_ok run
  -- the deleting transaction no longer writes to the log, and nobody else did
  have tails : ∀ tid' l, (s.setEdit tid (edit.insert logId .delete)).WritesTo tid' l →
      s.WritesTo tid' l ∧ l ≠ logId := by
    rintro tid' l ⟨e, tail, found, has⟩
    rw [lookup_setEdit] at found
    split at found
    · next self =>
      cases found
      rw [tail?_insert] at has
      split at has
      · cases has
      · next other => exact ⟨self ▸ writesTo_of_current cur has, other⟩
    · next third =>
      refine ⟨⟨e, tail, found, has⟩, fun self => third (careful tid' ?_)⟩
      exact self ▸ ⟨e, tail, found, has⟩
  refine guarded.shrink (fun tid' l h => (tails tid' l h).1) fun tid' l h mem => ?_
  exact mem_erase.mpr ⟨(tails tid' l h).2, mem⟩

theorem dropHandle {h : Nat}
    (careful : ∀ log, s.handles.lookup h = some log → log.canAppend = true → ∀ tid, ¬ s.WritesTo tid log.logId)
    (run : s.dropHandle tid h = .ok t) : Guarded t := by
  obtain ⟨log, found, run⟩ := bind_ok.mp run
  have found := handle_ok found
  dsimp only at run
  generalize mid_eq : (if log.canAppend = true then
    RawLogStore.removeFromWriteSet { s with handles := s.handles.erase h } log.logId
    else { s with handles := s.handles.erase h }) = mid at run
  have same : SameWriters mid t := by
    split at run
    · split at run
      · cases run
        exact .refl _
      · exact deallocChunks_same run
    · cases run
      exact .refl _
  have edits : mid.edits = s.edits := by
    subst mid_eq
    split <;> rfl
  have tails : ∀ tid' l, t.WritesTo tid' l → s.WritesTo tid' l := by
    intro tid' l h
    obtain ⟨e, tail, found, has⟩ := same.writesTo h
    exact ⟨e, tail, edits ▸ found, has⟩
  refine guarded.shrink tails fun tid' l h mem => ?_
  rw [same.2, ← mid_eq]
  split
  · next canAppend =>
    refine mem_erase.mpr ⟨fun self => ?_, mem⟩
    exact careful log found canAppend tid' (self ▸ tails tid' l h)
  · exact mem

end

/-- Reopening the store for a new boot: nobody writes. -/
theorem fromParts (persistent : RawLogStoreState) (chunks : ChunkSystem) (disk : BlockId → β) :
    Guarded (RawLogStore.fromParts persistent chunks disk) where
  inSet := fun ⟨_, _, h, _⟩ => nomatch h
  unique := fun ⟨_, _, h, _⟩ => nomatch h

/-- The end of a transaction removes its tails. -/
theorem finish (guarded : Guarded s) (tid : Tid) (edits : t.edits = s.edits.erase tid)
    (writeSet : t.writeSet = s.writeSet) : Guarded t := by
  have tails : ∀ tid' l, t.WritesTo tid' l → s.WritesTo tid' l := by
    rintro tid' l ⟨e, tail, found, has⟩
    rw [edits, lookup_erase_ite] at found
    split at found
    · cases found
    · exact ⟨e, tail, found, has⟩
  exact guarded.shrink tails fun _ _ _ mem => writeSet ▸ mem

end Guarded

/-- One operation keeps the invariant. -/
theorem Guarded.step {op : RawLogOp β} (guarded : Guarded s) (h : s.CarefulStep op t) : Guarded t := by
  obtain ⟨careful, run⟩ := h
  cases op with
  | newTx tid =>
    cases run
    exact guarded.shrink (fun _ _ h => h) fun _ _ _ mem => mem
  | create tid => exact guarded.createLog run
  | openLog tid logId canAppend =>
    have run : s.openLog tid logId canAppend = .ok t := run
    unfold openLog at run
    split at run
    · cases run
    split at run
    · obtain ⟨mid, prepare, eq⟩ := bind_ok.mp run
      cases eq
      have guarded' : Guarded mid := by
        unfold prepareOpen at prepare
        split at prepare
        · exact guarded.prepareAppend prepare
        · cases prepare
          exact guarded
      exact guarded'.shrink (fun _ _ h => h) fun _ _ _ mem => mem
    · obtain ⟨edit, -, run⟩ := bind_ok.mp run
      split at run
      · cases run
        exact guarded.shrink (fun _ _ h => h) fun _ _ _ mem => mem
      · cases run
  | append tid h buf =>
    obtain ⟨pos, run⟩ := ChunkSystem.snd_ok.mp run
    obtain ⟨-, tails, writeSet⟩ := append_writers run
    exact guarded.shrink tails fun _ _ _ mem => writeSet ▸ mem
  | delete tid logId => exact guarded.deleteLog careful run
  | drop tid h => exact guarded.dropHandle careful run
  | commit tid =>
    obtain ⟨mid, handler, run⟩ := bind_ok.mp run
    obtain ⟨chunks, -, eq⟩ := bind_ok.mp run
    cases eq
    have same := onCommit_same handler
    exact guarded.finish tid (congrArg (AList.erase tid) same.1) same.2
  | abort tid =>
    obtain ⟨chunks, -, eq⟩ := bind_ok.mp run
    cases eq
    exact guarded.finish tid rfl rfl

/-- If handles are closed and logs deleted with care, no two ongoing transactions write to the same
log; and appending takes being a writer. -/
theorem single_writer {persistent : RawLogStoreState} {chunks : ChunkSystem} {disk : BlockId → β}
    {ops : List (RawLogOp β)} {s : RawLogStore β}
    (run : Labelled.Run CarefulStep (fromParts persistent chunks disk) ops s) :
    (∀ tid tid' logId, s.WritesTo tid logId → s.WritesTo tid' logId → tid = tid') ∧
      ∀ tid h buf t, s.exec (.append tid h buf) = .ok t →
        ∃ log, s.handles.lookup h = some log ∧ s.WritesTo tid log.logId := by
  have guarded : Guarded s := run.invariant (fun _ _ _ inv h => inv.step h) (.fromParts persistent chunks disk)
  refine ⟨fun _ _ _ h h' => guarded.unique h h', fun _ _ _ _ append => ?_⟩
  obtain ⟨pos, append⟩ := ChunkSystem.snd_ok.mp append
  exact (append_writers append).1

/-- Transaction 0 creates a log, writes a block to it and commits. -/
def createdLog : List (RawLogOp Nat) :=
  [.newTx 0, .create 0, .append 0 0 ⟨[7], List.cons_ne_nil _ _⟩, .commit 0]

/-- Transaction 1 opens the log for appending and closes it; transaction 2 opens it while 1 is still
ongoing. -/
def reopenedLog : List (RawLogOp Nat) :=
  createdLog ++ [.drop 0 0, .newTx 1, .newTx 2, .openLog 1 0 true, .drop 1 1, .openLog 2 0 true]

def emptyStore : RawLogStore Nat := fromParts ∅ (.init 4) fun _ => 0

/-- The ongoing transactions that write to a log. -/
def writers (s : RawLogStore β) (logId : RawLogId) : List Tid :=
  s.edits.keysWith fun edit => (tail? edit logId).isSome

theorem mem_writers : tid ∈ s.writers logId ↔ s.WritesTo tid logId := by
  unfold writers WritesTo
  rw [mem_keysWith]
  simp only [isSome_iff_exists, exists_and_left]

instance (s : RawLogStore β) (op : RawLogOp β) : Decidable (s.Careful op) :=
  match op with
  | .drop _ h => decidable_of_iff
      (∀ log ∈ s.handles.lookup h, log.canAppend = true → s.writers log.logId = [])
      (by simp only [Careful, List.eq_nil_iff_forall_not_mem, mem_writers, Option.mem_def])
  | .delete tid logId => decidable_of_iff (∀ tid' ∈ s.writers logId, tid' = tid)
      (by simp only [Careful, mem_writers])
  | .newTx _ | .create _ | .openLog .. | .append .. | .commit _ | .abort _ => .isTrue trivial

/-- Execution that stops where a step is not careful. -/
def execCareful (s : RawLogStore Nat) (op : RawLogOp Nat) : Res (RawLogStore Nat) :=
  if s.Careful op then s.exec op else panicWith "not careful"

/-- The handle is dropped after the commit; transaction 1 opens the log and deletes it, and then both
1 and 2 have created a log of their own. -/
def deletedLog : List (RawLogOp Nat) :=
  createdLog ++ [.drop 0 0, .newTx 1, .newTx 2, .openLog 1 0 true, .create 2, .delete 1 0, .create 1]

theorem single_writer_deletedLog : ∃ s, Labelled.Run CarefulStep emptyStore deletedLog s ∧
    s.WritesTo 2 1 ∧ (∀ tid, s.WritesTo tid 1 → tid = 2) ∧
    s.WritesTo 1 2 ∧ (∀ tid, s.WritesTo tid 2 → tid = 1) ∧
    ∀ tid h buf t, s.exec (.append tid h buf) = .ok t →
      ∃ log, s.handles.lookup h = some log ∧ s.WritesTo tid log.logId := by
  obtain ⟨s, returns, seen⟩ := exists_ok_of_map (x := deletedLog.foldlM execCareful emptyStore)
    (f := fun s => (s.writers 1, s.writers 2)) (b := ([2], [1])) (by decide +kernel)
  obtain ⟨second, first⟩ := Prod.mk.inj seen
  have run : Labelled.Run CarefulStep emptyStore deletedLog s := by
    refine .of_foldlM (fun op _ s t h => ?_) returns
    exact ite_ok.mp h
  have writes {tid : Tid} {logId : RawLogId} (only : s.writers logId = [tid]) : s.WritesTo tid logId :=
    mem_writers.mp (only ▸ List.mem_singleton_self tid)
  obtain ⟨unique, append⟩ := single_writer run
  exact ⟨s, run, writes second, fun tid h => unique tid 2 1 h (writes second), writes first,
    fun tid h => unique tid 1 2 h (writes first), append⟩

/-- Both transactions have an append edit, for the same free blocks of the log's last chunk. -/
theorem dropped_handle_two_writers :
    ∃ s, Labelled.Run (fun s op t => s.exec op = .ok t) emptyStore reopenedLog s ∧ s.WritesTo 1 0 ∧
      s.WritesTo 2 0 ∧
      (s.edits.lookup 1).bind (·.tail? 0) = some ⟨0, 1023, [], 0⟩ ∧
      (s.edits.lookup 2).bind (·.tail? 0) = some ⟨0, 1023, [], 0⟩ := by
  obtain ⟨s, returns, tails⟩ := exists_ok_of_map (x := reopenedLog.foldlM exec emptyStore)
    (f := fun s => ((s.edits.lookup 1).bind (·.tail? 0), (s.edits.lookup 2).bind (·.tail? 0)))
    (b := (some ⟨0, 1023, [], 0⟩, some ⟨0, 1023, [], 0⟩)) (by decide +kernel)
  obtain ⟨first, second⟩ := Prod.mk.inj tails
  refine ⟨s, .of_foldlM (fun _ _ _ _ h => h) returns, ?_, ?_, first, second⟩
  · obtain ⟨edit, found, has⟩ := bind_eq_some_iff.mp first
    exact ⟨edit, _, found, has⟩
  · obtain ⟨edit, found, has⟩ := bind_eq_some_iff.mp second
    exact ⟨edit, _, found, has⟩

end OmegaOsx.MlsDisk.RawLogStore
