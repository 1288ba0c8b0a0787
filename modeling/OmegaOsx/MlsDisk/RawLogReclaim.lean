import OmegaOsx.MlsDisk.RawLogRead

/-!
# Reclaiming the chunks of a deleted log

The commit of a deletion releases the `LazyDelete` of the log, and that gives back the chunks it
lists. It lists the chunks the log had when the `LazyDelete` was made: chunks that later transactions
have appended are not among them. And if a handle is still open, the chunks are given back in the
transaction in which it is closed, so they become free only if and when that commits. The chunks that
the deleting transaction has appended itself are given back by the deletion.
-/

namespace OmegaOsx.MlsDisk.RawLogStore

variable {β : Type} (s : RawLogStore β)

/-- No handle of the log is open. -/
def Closed (l : RawLogId) : Prop :=
  ∀ entry ∈ s.handles.entries, entry.2.logId ≠ l

instance (s : RawLogStore β) (l : RawLogId) : Decidable (s.Closed l) :=
  inferInstanceAs (Decidable (∀ entry ∈ s.handles.entries, entry.2.logId ≠ l))

/-- The log has been deleted and its last handle dropped. -/
def Gone (l : RawLogId) : Prop := s.persistent.lookup l = none ∧ s.Closed l

instance (s : RawLogStore β) (l : RawLogId) : Decidable (s.Gone l) :=
  inferInstanceAs (Decidable (_ ∧ _))

/-- The chunks in the tail that a transaction has for a log. -/
def tailChunks (tid : Tid) (l : RawLogId) : List ChunkId := (s.tailAt tid l).elim [] (·.chunks)

/-- The logs that a transaction deletes. -/
def deletedBy (tid : Tid) : List RawLogId :=
  RawLogStoreEdit.iterDeletedLogs ((s.edits.lookup tid).getD ∅)

/-- When a transaction commits the deletion of a log that has chunks, no handle of the log is open
and its `LazyDelete` lists all of them. -/
def Reclaims : RawLogOp β → Prop
  | .commit tid => ∀ l ∈ s.deletedBy tid, ∀ entry ∈ s.persistent.lookup l, ∀ i ∈ entry.head.chunks,
      s.Closed l ∧ ∃ lazy ∈ s.lazyDeletes.lookup l, i ∈ lazy.head.chunks
  | _ => True

instance (s : RawLogStore β) (op : RawLogOp β) : Decidable (s.Reclaims op) :=
  match op with
  | .commit tid => inferInstanceAs (Decidable (∀ l ∈ s.deletedBy tid,
      ∀ entry ∈ s.persistent.lookup l, ∀ i ∈ entry.head.chunks,
        s.Closed l ∧ ∃ lazy ∈ s.lazyDeletes.lookup l, i ∈ lazy.head.chunks))
  | .newTx _ | .create _ | .openLog .. | .append .. | .delete .. | .drop .. | .abort _ => .isTrue trivial

variable {l : RawLogId}

theorem closed_iff {s : RawLogStore β} : s.Closed l ↔ ∀ h log, s.handles.lookup h = some log → log.logId ≠ l :=
  ⟨fun closed h log found => closed ⟨h, log⟩ (AList.mem_lookup_iff.mp found),
    fun all entry mem => all entry.1 entry.2 (AList.mem_lookup_iff.mpr mem)⟩

theorem Closed.insert {s t : RawLogStore β} {h : Nat} {log : RawLog}
    (closed : s.Closed l) (other : log.logId ≠ l) (handles : t.handles = s.handles.insert h log) :
    t.Closed l := by
  refine closed_iff.mpr fun h' log' found => ?_
  rw [handles, Table.lookup_insert_ite] at found
  split at found
  · cases found
    exact other
  · exact closed_iff.mp closed h' log' found

variable {capacity : Nat} {lazyOf : RawLogId → Option RawLogEntry}

/-- Whether an operation discards the tail that a transaction has for a log. -/
def discards : RawLogOp β → Tid → RawLogId → Bool
  | .delete tid l, tid', l' => tid' == tid && l' == l
  | .commit tid, tid', _ | .abort tid, tid', _ => tid' == tid
  | _, _, _ => false

/-- Only a commit changes the persistent logs, no handle is opened of a log that has been deleted, and
a tail keeps its chunks until it is discarded. -/
structure Frame (lazyOf : RawLogId → Option RawLogEntry) (s : RawLogStore β) (op : RawLogOp β)
    (t : RawLogStore β) : Prop where
  persistent : (∀ tid, op ≠ .commit tid) → t.persistent = s.persistent
  closed : ∀ l, s.Closed l → s.persistent.lookup l = none → lazyOf l ≠ none → t.Closed l
  tails : ∀ tid l i, discards op tid l = false → i ∈ s.tailChunks tid l → i ∈ t.tailChunks tid l

section

variable {s t : RawLogStore β} {tid tid' : Tid} {edit edit' : RawLogStoreEdit} {i : ChunkId}

theorem mem_tailChunks_setEdit (cur : s.currentEdit tid = .ok edit)
    (here : tid' = tid → i ∈ (edit.tail? l).elim [] (·.chunks) → i ∈ (edit'.tail? l).elim [] (·.chunks))
    (mem : i ∈ s.tailChunks tid' l) : i ∈ (s.setEdit tid edit').tailChunks tid' l := by
  unfold tailChunks tailAt at mem ⊢
  rw [lookup_setEdit]
  split
  · next self =>
    rw [self, ← currentEdit_ok cur] at mem
    exact here self mem
  · exact mem

theorem mem_tailChunks_erase (other : tid' ≠ tid) (mem : i ∈ s.tailChunks tid' l)
    (edits : t.edits = s.edits.erase tid) : i ∈ t.tailChunks tid' l := by
  unfold tailChunks tailAt at mem ⊢
  rwa [edits, Table.lookup_erase_ite, if_neg other]

theorem Sound.frame {op : RawLogOp β} (sound : Sound capacity lazyOf s) (run : s.exec op = .ok t) :
    Frame lazyOf s op t := by
  cases op with
  | newTx tid =>
    cases run
    exact ⟨fun _ => rfl, fun _ closed _ _ => closed, fun _ _ _ _ => id⟩
  | create tid =>
    obtain ⟨-, edit, cur, rfl⟩ := createLog_ok run
    refine ⟨fun _ => rfl, fun l closed _ known => closed.insert (sound.lazyIssued known).ne' rfl,
      fun tid' l i _ => mem_tailChunks_setEdit cur fun _ mem => ?_⟩
    rw [RawLogStoreEdit.createLog, tail?_insert]
    split
    · -- the id of the log is new
      next same =>
      obtain ⟨e, tail, at_l, has, -⟩ := inTail_of_tailAt (tailAt_of_current cur l ▸ mem)
      exact absurd (same ▸ sound.issued at_l has) (lt_irrefl _)
    · exact mem
  | openLog tid logId canAppend =>
    obtain ⟨lazy, entry, mid, -, found, prepare, rfl⟩ := sound.openLog_ok run
    have other {l : RawLogId} (deleted : s.persistent.lookup l = none) : logId ≠ l := by
      rintro rfl
      cases deleted.symm.trans found
    rcases prepare with prepare | rfl
    · obtain ⟨-, edit, edit', cur, rfl, made⟩ := prepareAppend_ok prepare
      refine ⟨fun _ => rfl, fun l closed deleted _ => closed.insert (other deleted) rfl,
        fun tid' l i _ => mem_tailChunks_setEdit cur fun _ mem => ?_⟩
      rcases made with rfl | ⟨tail, absent, -, rfl⟩
      · exact mem
      rw [tail?_insert]
      split
      · next same =>
        rw [same, RawLogStoreEdit.tail?_eq, absent] at mem
        cases mem
      · exact mem
    · exact ⟨fun _ => rfl, fun l closed deleted _ => closed.insert (other deleted) rfl, fun _ _ _ _ => id⟩
  | append tid h buf =>
    obtain ⟨pos, run⟩ := ChunkSystem.snd_ok.mp run
    obtain ⟨log, edit, e, tail, _, newChunks, _, _, numBlocks, found, -, cur, at_l, has, -, -, -, -, rfl⟩ :=
      append_ok run
    refine ⟨fun _ => rfl, fun l closed _ _ => closed.insert ?_ rfl,
      fun tid' l i _ => mem_tailChunks_setEdit cur fun _ mem => ?_⟩
    · exact closed_iff.mp closed h log found
    rw [RawLogStoreEdit.tail?_eq] at mem ⊢
    rw [Table.lookup_insert_ite]
    split
    · next same =>
      rw [same, at_l, Option.bind_some, has] at mem
      rw [Option.bind_some, RawLogEdit.tail?_withTail has]
      exact List.mem_append_left _ mem
    · exact mem
  | delete tid logId =>
    obtain ⟨edit, chunks, cur, -, rfl⟩ := deleteLog_ok run
    refine ⟨fun _ => rfl, fun _ closed _ _ => closed,
      fun tid' l i kept => mem_tailChunks_setEdit cur fun self mem => ?_⟩
    rw [tail?_insert]
    split
    · next same => simp [discards, self, same] at kept
    · exact mem
  | drop tid h =>
    obtain ⟨log, _, _, -, -, rfl⟩ := dropHandle_ok run
    refine ⟨fun _ => rfl, fun l closed _ _ => closed_iff.mpr fun h' log' found => ?_, fun _ _ _ _ => id⟩
    rw [Table.lookup_erase_ite] at found
    split at found
    · cases found
    · exact closed_iff.mp closed h' log' found
  | commit tid =>
    obtain ⟨_, _, _, _, _, _, -, -, -, -, rfl⟩ := sound.commit_ok run
    exact ⟨fun other => absurd rfl (other tid), fun _ closed _ _ => closed,
      fun tid' l i going mem => mem_tailChunks_erase (ne_of_beq_false going) mem rfl⟩
  | abort tid =>
    obtain ⟨chunks, -, eq⟩ := bind_ok.mp run
    cases eq
    exact ⟨fun _ => rfl, fun _ closed _ _ => closed,
      fun tid' l i going mem => mem_tailChunks_erase (ne_of_beq_false going) mem rfl⟩

end

section

variable {state state' : RawLogStoreState} {edit : RawLogStoreEdit} (run : state.apply edit = .ok state')
include run

theorem mem_head_of_tail {i : ChunkId} (mem : i ∈ (edit.tail? l).elim [] (·.chunks)) :
    ∃ entry, state'.lookup l = some entry ∧ i ∈ entry.head.chunks := by
  rw [RawLogStoreEdit.tail?_eq] at mem
  rw [apply_lookup run]
  cases e : edit.lookup l with
  | none =>
    rw [e] at mem
    cases mem
  | some e' =>
    rw [e] at mem
    cases e' with
    | create tail => exact ⟨_, rfl, mem⟩
    | append tail =>
      obtain ⟨entry, found, -⟩ := apply_append run e
      rw [found]
      exact ⟨_, rfl, List.mem_append_right _ mem⟩
    | delete => cases mem

theorem deleted_of_none {entry : RawLogEntry} (before : state.lookup l = some entry) (after : state'.lookup l = none) :
    edit.lookup l = some .delete := by
  rw [apply_lookup run, before] at after
  cases e : edit.lookup l with
  | none =>
    rw [e] at after
    cases after
  | some e' =>
    rw [e] at after
    cases e' with
    | create tail => cases after
    | append tail => cases after
    | delete => rfl

end

/-- A deleted log whose `LazyDelete` nobody shares: the chunks it lists are free after the commit. -/
theorem Sound.freed {s t : RawLogStore β}
    {tid : Tid} (sound : Sound capacity lazyOf s) (run : s.commit tid = .ok t)
    {lazy : RawLogEntry} {i : ChunkId} (deleted : s.EditAt tid l .delete)
    (table : s.lazyDeletes.lookup l = some lazy) (closed : s.Closed l) (mem : i ∈ lazy.head.chunks) :
    t.chunks.state.allocMap.isFree i = true := by
  obtain ⟨edit, _, mid, _, ids, chunks, cur, -, handled, ended, rfl⟩ := sound.commit_ok run
  obtain ⟨edit', found, at_l⟩ := deleted
  have same := currentEdit_ok cur
  rw [found] at same
  cases same
  have unshared : ¬ ∃ lazy, s.Shares l lazy := fun ⟨_, h, log, has, same, _⟩ =>
    closed_iff.mp closed h log has same
  have inside : i ∈ ids := handled.freed l lazy at_l table unshared mem
  obtain ⟨l', own⟩ := handled.origin i inside
  obtain ⟨alloc, ongoing, -⟩ := bind_ok.mp cur
  have ongoing := ChunkSystem.current_ok.mp ongoing
  obtain ⟨alloc', ongoing', entries⟩ := handled.released.entry ongoing
  -- the chunk was held and untouched, so it is given back now
  have quiet := sound.owned.ownsQuiet own ongoing
  have gaveBack : alloc'.lookup i = some .dealloc := by
    rw [entries, if_pos inside, quiet]
    rfl
  obtain ⟨ongoing_eq, held_eq⟩ := ChunkSystem.commit_ok ongoing' ended
  have inv := handled.owned.inv.commit ended
  have taken : s.chunks.state.allocMap[i]? = some true := (sound.owned.inv.bit i).mpr (.inl (sound.owned.ownsHeld own))
  have cleared : chunks.state.allocMap[i]? ≠ some true := by
    intro bit
    rcases (inv.bit i).mp bit with isHeld | ⟨tid', e, at_tid, own'⟩
    · rw [held_eq] at isHeld
      rcases isHeld with now | ⟨-, notGiven⟩
      · cases gaveBack.symm.trans now
      · exact notGiven gaveBack
    · rw [ongoing_eq] at at_tid
      obtain ⟨other, at_tid⟩ := ChunkSystem.Inv.lookup_erase_some.mp at_tid
      refine other (handled.owned.inv.owner (i := i) at_tid ongoing' ?_ ?_)
      · rw [own']
        exact nofun
      · rw [gaveBack]
        exact nofun
  have bound : i < chunks.state.allocMap.length := by
    have := (getElem?_eq_some_iff.mp taken).1
    have same : chunks.state.allocMap.length = s.chunks.state.allocMap.length :=
      inv.capacity_eq.trans sound.owned.inv.capacity_eq.symm
    exact same ▸ this
  refine BitMap.isFree_iff.mpr ?_
  rw [List.getElem?_eq_getElem bound] at cleared ⊢
  exact congrArg some (Bool.eq_false_iff.mpr fun bit => cleared (congrArg some bit))

/-- The chunks that a transaction has appended to a log are free when it has deleted the log. -/
theorem Sound.freed_tail {s t : RawLogStore β} {tid : Tid} (sound : Sound capacity lazyOf s)
    (run : s.deleteLog tid l = .ok t) {i : ChunkId} (mem : i ∈ s.tailChunks tid l) :
    t.chunks.state.allocMap.isFree i = true := by
  obtain ⟨edit, chunks, cur, release, rfl⟩ := deleteLog_ok run
  have inTail : ∀ i ∈ s.tailChunks tid l, s.InTail tid l i := fun _ => inTail_of_tailAt
  unfold tailChunks at inTail mem
  rw [tailAt_of_current cur] at inTail mem
  rcases release with ⟨has, -⟩ | ⟨tail, has, freed⟩
  · rw [has] at mem
    cases mem
  rw [has] at inTail mem
  obtain ⟨alloc, ongoing, -⟩ := bind_ok.mp cur
  have ongoing := ChunkSystem.current_ok.mp ongoing
  have own i (mem : i ∈ tail.chunks) := sound.owned.tailAlloc (inTail i mem)
  obtain ⟨e, _, at_l, has', -⟩ := inTail i mem
  have nodup : tail.chunks.Nodup := by
    rw [RawLogStoreEdit.tail?_eq] at has
    obtain ⟨e, at_l, has⟩ := Option.bind_eq_some_iff.mp has
    exact sound.tailNodup (editAt_of_current cur at_l) has
  obtain ⟨state', edit', freed', -, gave⟩ := sound.owned.inv.deallocBatch_run ongoing nodup
    fun i mem => .inl (own i mem)
  cases freed.symm.trans freed'
  obtain ⟨_, found, taken⟩ := own i mem
  cases ongoing.symm.trans found
  exact BitMap.isFree_iff.mpr ((gave.bit i).trans (if_pos ⟨mem, taken⟩))

end RawLogStore

/-- The store, and the chunks that transactions have appended to each log: those of the committed
transactions, and those of the ongoing ones, recorded when they are appended. -/
structure TracedStore (β : Type) where
  store : RawLogStore β
  appended : RawLogId → List ChunkId
  pending : Tid → RawLogId → List ChunkId

namespace TracedStore

variable {β : Type}

open RawLogStore (Sound Opened)

/-- The chunks of the logs that are there when the store is opened have been appended before. -/
def start (persistent : RawLogStoreState) (chunks : ChunkSystem) (disk : BlockId → β) :
    TracedStore β where
  store := .fromParts persistent chunks disk
  appended l := (persistent.lookup l).elim [] (·.head.chunks)
  pending _ _ := []

def appendedAfter (s : TracedStore β) : RawLogOp β → RawLogId → List ChunkId
  | .commit tid, l => s.appended l ++ s.pending tid l
  | _, l => s.appended l

/-- The chunks of a tail stay recorded until the tail is discarded. -/
def pendingAfter (s : TracedStore β) (store : RawLogStore β) (op : RawLogOp β) (tid : Tid)
    (l : RawLogId) : List ChunkId :=
  if RawLogStore.discards op tid l then [] else s.pending tid l ∪ store.tailChunks tid l

def exec (s : TracedStore β) (op : RawLogOp β) : Res (TracedStore β) := do
  let store ← s.store.exec op
  pure ⟨store, s.appendedAfter op, s.pendingAfter store op⟩

def Step (s : TracedStore β) (op : RawLogOp β) (t : TracedStore β) : Prop :=
  s.store.Reclaims op ∧ s.exec op = .ok t

/-- The chunks appended to a log are in its head as long as it is there; afterwards no handle of it is
open. Those of an ongoing transaction are in its tail. -/
structure Accounted (capacity : Nat) (lazyOf : RawLogId → Option RawLogEntry) (s : TracedStore β) :
    Prop where
  sound : Sound capacity lazyOf s.store
  known : ∀ {l i}, i ∈ s.appended l → lazyOf l ≠ none
  head : ∀ {l i entry}, i ∈ s.appended l → s.store.persistent.lookup l = some entry → i ∈ entry.head.chunks
  closed : ∀ {l i}, i ∈ s.appended l → s.store.persistent.lookup l = none → s.store.Closed l
  inTail : ∀ {tid l i}, i ∈ s.pending tid l → i ∈ s.store.tailChunks tid l

variable {capacity : Nat}

theorem Accounted.start {persistent : RawLogStoreState} {chunks : ChunkSystem}
    (disk : BlockId → β) (opened : Opened capacity persistent chunks) :
    Accounted capacity persistent.lookup (start persistent chunks disk) where
  sound := Sound.fromParts disk opened
  known {l i} mem none := by
    replace mem : i ∈ (persistent.lookup l).elim [] (·.head.chunks) := mem
    rw [none] at mem
    cases mem
  head {l i entry} mem found := by
    replace mem : i ∈ (persistent.lookup l).elim [] (·.head.chunks) := mem
    rw [show persistent.lookup l = some entry from found] at mem
    exact mem
  closed _ _ _ mem := nomatch mem
  inTail mem := nomatch mem

section

variable {lazyOf : RawLogId → Option RawLogEntry} {s : TracedStore β} (acc : Accounted capacity lazyOf s)
include acc

theorem Accounted.inTail_step {store : RawLogStore β} {op : RawLogOp β} (run : s.store.exec op = .ok store)
    {tid : Tid} {l : RawLogId} {i : ChunkId} (mem : i ∈ s.pendingAfter store op tid l) :
    i ∈ store.tailChunks tid l := by
  unfold pendingAfter at mem
  split at mem
  · cases mem
  · next kept =>
    rcases List.mem_union_iff.mp mem with old | new
    · exact (acc.sound.frame run).tails tid l i (Bool.eq_false_iff.mpr kept) (acc.inTail old)
    · exact new

/-- A commit keeps the accounts, and the chunks of a log that goes with it are free. -/
theorem Accounted.commit
    {tid : Tid} {store : RawLogStore β}
    (reclaims : s.store.Reclaims (.commit tid)) (run : s.store.commit tid = .ok store) :
    (∃ lazyOf', Accounted capacity lazyOf'
        ⟨store, s.appendedAfter (.commit tid), s.pendingAfter store (.commit tid)⟩) ∧
      ∀ l, ¬ s.store.Gone l → store.Gone l → ∀ i ∈ s.appendedAfter (.commit tid) l,
        store.chunks.state.allocMap.isFree i = true := by
  obtain ⟨lazyOf', sound', keeps⟩ := acc.sound.commit run
  obtain ⟨edit, persistent, _, _, _, chunks, cur, applied, -, -, eq⟩ := acc.sound.commit_ok run
  have edit_eq := RawLogStore.currentEdit_ok cur
  have persistent_eq : store.persistent = persistent := by rw [eq]
  have closed_iff {l : RawLogId} : store.Closed l ↔ s.store.Closed l := by rw [eq]; exact .rfl
  -- what the transaction has appended is in the new head
  have tail {l : RawLogId} {i : ChunkId} (mem : i ∈ s.pending tid l) :
      ∃ entry, store.persistent.lookup l = some entry ∧ i ∈ entry.head.chunks := by
    have mem := acc.inTail mem
    unfold RawLogStore.tailChunks at mem
    rw [RawLogStore.tailAt_of_current cur] at mem
    rw [persistent_eq]
    exact RawLogStore.mem_head_of_tail applied mem
  -- a log that goes has been deleted, and all its chunks are in its `LazyDelete`
  have gone {l : RawLogId} {i : ChunkId} {entry : RawLogEntry} (mem : i ∈ s.appended l)
      (found : s.store.persistent.lookup l = some entry) (none : store.persistent.lookup l = none) :
      s.store.EditAt tid l .delete ∧ s.store.Closed l ∧
        ∃ lazy ∈ s.store.lazyDeletes.lookup l, i ∈ lazy.head.chunks := by
    have deleted := RawLogStore.deleted_of_none applied found (persistent_eq ▸ none)
    refine ⟨RawLogStore.editAt_of_current cur deleted, ?_⟩
    refine reclaims l ?_ entry found i (acc.head mem found)
    unfold RawLogStore.deletedBy
    rw [← edit_eq]
    exact RawLogStoreEdit.mem_iterDeletedLogs.mpr deleted
  have closed {l : RawLogId} {i : ChunkId} (mem : i ∈ s.appended l)
      (none : store.persistent.lookup l = none) : store.Closed l := by
    refine closed_iff.mpr ?_
    cases found : s.store.persistent.lookup l with
    | none => exact acc.closed mem found
    | some entry => exact (gone mem found none).2.1
  refine ⟨⟨lazyOf', sound', fun mem => ?_, fun {l i entry} mem found => ?_, fun mem none => ?_,
    acc.inTail_step (show s.store.exec (.commit tid) = .ok store from run)⟩, fun l before after i mem => ?_⟩
  · rcases List.mem_append.mp mem with old | new
    · exact keeps _ (acc.known old)
    obtain ⟨entry, found, -⟩ := tail new
    obtain ⟨lazy, -, has⟩ := sound'.lazyOf_of_persistent (by rw [found]; exact nofun)
    rw [has]
    exact nofun
  · rcases List.mem_append.mp mem with old | new
    · rcases RawLogStore.apply_some applied (persistent_eq ▸ found) with
        ⟨-, head⟩ | ⟨tail, e, -⟩ | ⟨tail, before, -, head, rfl⟩
      · exact acc.head old head
      · -- nothing has been appended yet to a log that is being created
        have none := (acc.sound.creating (RawLogStore.editAt_of_current cur e)).2
        exact absurd none (acc.known old)
      · exact List.mem_append_left _ (acc.head old head)
    · obtain ⟨entry', found', inside⟩ := tail new
      cases found.symm.trans found'
      exact inside
  · rcases List.mem_append.mp mem with old | new
    · exact closed old none
    · obtain ⟨entry, found, -⟩ := tail new
      cases none.symm.trans found
  · rcases List.mem_append.mp mem with old | new
    · cases found : s.store.persistent.lookup l with
      | none => exact absurd ⟨found, closed_iff.mp after.2⟩ before
      | some entry =>
        obtain ⟨deleted, shut, lazy, table, inside⟩ := gone old found after.1
        exact acc.sound.freed run deleted table shut inside
    · obtain ⟨entry, found, -⟩ := tail new
      cases after.1.symm.trans found

/-- The same for any operation. -/
theorem Accounted.step {t : TracedStore β} {op : RawLogOp β} (step : s.Step op t) :
    (∃ lazyOf', Accounted capacity lazyOf' t) ∧
      ∀ l, ¬ s.store.Gone l → t.store.Gone l → ∀ i ∈ t.appended l,
        t.store.chunks.state.allocMap.isFree i = true := by
  obtain ⟨reclaims, run⟩ := step
  obtain ⟨store, act, eq⟩ := bind_ok.mp run
  cases eq
  by_cases commit : ∃ tid, op = .commit tid
  · obtain ⟨tid, rfl⟩ := commit
    exact acc.commit reclaims act
  have other : ∀ tid, op ≠ .commit tid := fun tid same => commit ⟨tid, same⟩
  obtain ⟨lazyOf', sound', keeps⟩ := acc.sound.step act
  obtain ⟨persistent, closed, -⟩ := acc.sound.frame act
  have persistent := persistent other
  have appended : s.appendedAfter op = s.appended := by
    cases op with
    | commit tid => exact absurd rfl (other tid)
    | _ => rfl
  rw [appended]
  refine ⟨⟨lazyOf', sound', fun mem => keeps _ (acc.known mem), fun mem found => ?_,
    fun mem gone => ?_, acc.inTail_step act⟩, fun l before after i mem => ?_⟩
  · exact acc.head mem (persistent ▸ found)
  · replace gone : s.store.persistent.lookup _ = none := persistent ▸ gone
    exact closed _ (acc.closed mem gone) gone (acc.known mem)
  · have gone : s.store.persistent.lookup l = none := persistent ▸ after.1
    exact absurd ⟨gone, acc.closed mem gone⟩ before

end

/-- If logs are deleted only when no handle of them is open and their `LazyDelete` is complete, then at
the moment a log is gone every chunk that committed transactions have appended to it is free; and the
chunks that the deleting transaction has appended itself are free when it has deleted the log. -/
theorem reclaimed {capacity : Nat} {persistent : RawLogStoreState} {chunks : ChunkSystem}
    {disk : BlockId → β} (opened : Opened capacity persistent chunks) {ops : List (RawLogOp β)}
    {s t : TracedStore β} {op : RawLogOp β}
    (run : Labelled.Run Step (start persistent chunks disk) ops s) (last : s.Step op t) :
    (∀ l, ¬ s.store.Gone l → t.store.Gone l →
      ∀ i ∈ t.appended l, t.store.chunks.state.allocMap.isFree i = true) ∧
    ∀ tid l, op = .delete tid l →
      ∀ i ∈ s.pending tid l, t.store.chunks.state.allocMap.isFree i = true := by
  have keep : ∀ (s : TracedStore β) op t, (∃ lazyOf, Accounted capacity lazyOf s) → Step s op t →
      ∃ lazyOf, Accounted capacity lazyOf t := by
    rintro s op t ⟨lazyOf, acc⟩ step
    exact (acc.step step).1
  obtain ⟨lazyOf, acc⟩ := run.invariant keep ⟨_, .start disk opened⟩
  refine ⟨(acc.step last).2, ?_⟩
  rintro tid l rfl i mem
  obtain ⟨store, act, eq⟩ := bind_ok.mp last.2
  cases eq
  exact acc.sound.freed_tail act (acc.inTail mem)

/-- An empty store of four chunks. -/
def formatted : TracedStore Nat := start ∅ (.init 4) fun _ => 0

/-- Log 0 is created with a block in chunk 0, log 1 without one. Transaction 1 appends to log 1, in
chunk 1, deletes log 0 and is about to delete log 1. -/
def aboutToDelete : List (RawLogOp Nat) :=
  [.newTx 0, .create 0, .append 0 0 ⟨[5], List.cons_ne_nil _ _⟩, .create 0, .commit 0, .drop 0 0,
    .drop 0 1, .newTx 1, .openLog 1 1 true, .append 1 2 ⟨[8], List.cons_ne_nil _ _⟩, .drop 1 2,
    .delete 1 0]

/-- The block is appended by a later transaction than the one that creates the log. -/
def appendedLater : List (RawLogOp Nat) :=
  [.newTx 0, .create 0, .drop 0 0, .commit 0,
    .newTx 1, .openLog 1 0 true, .append 1 1 ⟨[6], List.cons_ne_nil _ _⟩, .drop 1 1, .commit 1,
    .newTx 2, .delete 2 0]

/-- Execution that stops where a deletion would not reclaim. -/
def execReclaiming (s : TracedStore Nat) (op : RawLogOp Nat) : Res (TracedStore Nat) :=
  if s.store.Reclaims op then s.exec op else panicWith "the deletion does not reclaim"

theorem step_of_execReclaiming {s t : TracedStore Nat} {op : RawLogOp Nat}
    (run : execReclaiming s op = .ok t) : s.Step op t := by
  obtain ⟨reclaims, run⟩ := ite_ok.mp run
  exact ⟨reclaims, run⟩

theorem reclaimed_aboutToDelete : ∃ s t u, Labelled.Run Step formatted aboutToDelete s ∧
    s.Step (.delete 1 1) t ∧ s.pending 1 1 = [1] ∧ t.store.chunks.state.allocMap.isFree 1 = true ∧
    t.Step (.commit 1) u ∧ ¬ t.store.Gone 0 ∧ u.store.Gone 0 ∧ u.appended 0 = [0] ∧
      u.store.chunks.state.allocMap.isFree 0 = true := by
  obtain ⟨⟨s, t, u⟩, returns, seen⟩ := exists_ok_of_map (x := do
      let s ← aboutToDelete.foldlM execReclaiming formatted
      let t ← execReclaiming s (.delete 1 1)
      let u ← execReclaiming t (.commit 1)
      pure (s, t, u))
    (f := fun x => (x.1.pending 1 1, decide (¬ x.2.1.store.Gone 0 ∧ x.2.2.store.Gone 0), x.2.2.appended 0))
    (b := ([1], true, [0])) (by decide +kernel)
  simp only [Prod.mk.injEq, decide_eq_true_eq] at seen
  obtain ⟨pending, ⟨there, gone⟩, chunks⟩ := seen
  obtain ⟨_, first, rest⟩ := bind_ok.mp returns
  obtain ⟨_, second, rest⟩ := bind_ok.mp rest
  obtain ⟨_, third, eq⟩ := bind_ok.mp rest
  cases eq
  have run : Labelled.Run Step formatted aboutToDelete s := by
    refine .of_foldlM (fun op _ s t h => ?_) first
    exact step_of_execReclaiming h
  have delete := step_of_execReclaiming second
  have commit := step_of_execReclaiming third
  refine ⟨s, t, u, run, delete, pending, ?_, commit, there, gone, chunks, ?_⟩
  · exact (reclaimed (.empty 4) run delete).2 1 1 rfl 1 (by rw [pending]; exact List.mem_singleton_self 1)
  · refine (reclaimed (.empty 4) (run.append (.single delete)) commit).1 0 there gone 0 ?_
    rw [chunks]
    exact List.mem_singleton_self 0

/-- Chunk 0 was appended after the `LazyDelete` of the log had been made: it stays allocated for ever. -/
theorem appended_chunk_leaks :
    ∃ s t, Labelled.Run (fun s op t => exec s op = .ok t) formatted appendedLater s ∧
      s.exec (.commit 2) = .ok t ∧ ¬ s.store.Gone 0 ∧ t.store.Gone 0 ∧ t.appended 0 = [0] ∧
      t.store.chunks.state.allocMap.isFree 0 = false := by
  obtain ⟨⟨s, t⟩, returns, seen⟩ := exists_ok_of_map (x := do
      let s ← appendedLater.foldlM exec formatted
      let t ← s.exec (.commit 2)
      pure (s, t))
    (f := fun x => (decide (x.1.store.Gone 0), decide (x.2.store.Gone 0), x.2.appended 0,
      x.2.store.chunks.state.allocMap.isFree 0))
    (b := (false, true, [0], false)) (by decide +kernel)
  obtain ⟨before, seen⟩ := Prod.mk.inj seen
  obtain ⟨after, seen⟩ := Prod.mk.inj seen
  obtain ⟨chunks, bit⟩ := Prod.mk.inj seen
  obtain ⟨_, first, rest⟩ := bind_ok.mp returns
  obtain ⟨_, second, eq⟩ := bind_ok.mp rest
  cases eq
  exact ⟨s, t, .of_foldlM (fun _ _ _ _ h => h) first, second,
    of_decide_eq_false before, of_decide_eq_true after, chunks, bit⟩

end TracedStore

end OmegaOsx.MlsDisk
