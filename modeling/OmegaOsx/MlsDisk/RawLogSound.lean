import OmegaOsx.MlsDisk.RawLogOwnership

/-!
# The invariant of the raw log store

`Sound` says that the tables of the store fit together and that every chunk has the owner it should
have: the head of a persistent log, a `LazyDelete` that handles of a deleted log still share, or the
tail of an ongoing transaction. A log has one `LazyDelete` in its life, made when its creation is
committed or when the store is loaded; `lazyOf` names it, also after it has left the table.
-/

namespace OmegaOsx.MlsDisk

open RawLogStoreEdit RawLogEdit Option Table List AList

def RawLogEdit.tail? : RawLogEdit → Option RawLogTail
  | .create tail | .append tail => some tail
  | .delete => none

/-- The entry with another tail. -/
def RawLogEdit.withTail (tail : RawLogTail) : RawLogEdit → RawLogEdit
  | .create _ => .create tail
  | .append _ => .append tail
  | .delete => .delete

variable {l : RawLogId} {edit : RawLogStoreEdit} {e : RawLogEdit} {old : RawLogTail}

theorem RawLogStoreEdit.setTail_eq (found : edit.lookup l = some e) (has : e.tail? = some old)
    (tail : RawLogTail) : edit.setTail l tail = edit.insert l (e.withTail tail) := by
  unfold setTail
  rw [found]
  cases e with
  | create _ => rfl
  | append _ => rfl
  | delete => cases has

theorem RawLogEdit.tail?_withTail (has : e.tail? = some old) (tail : RawLogTail) :
    (e.withTail tail).tail? = some tail := by
  cases e with
  | create _ => rfl
  | append _ => rfl
  | delete => cases has

theorem RawLogStoreEdit.tail?_eq (edit : RawLogStoreEdit) (l : RawLogId) :
    edit.tail? l = (edit.lookup l).bind RawLogEdit.tail? := by
  unfold tail?
  cases edit.lookup l with
  | none => rfl
  | some e => cases e <;> rfl

theorem RawLogStoreEdit.mem_iterCreatedLogs :
    l ∈ edit.iterCreatedLogs ↔ ∃ tail, edit.lookup l = some (.create tail) := by
  refine mem_keysWith.trans ⟨fun ⟨e, found, test⟩ => ?_, fun ⟨tail, found⟩ => ⟨_, found, rfl⟩⟩
  cases e with
  | create tail => exact ⟨tail, found⟩
  | append _ => cases test
  | delete => cases test

theorem RawLogStoreEdit.mem_iterDeletedLogs : l ∈ edit.iterDeletedLogs ↔ edit.lookup l = some .delete := by
  refine mem_keysWith.trans ⟨fun ⟨e, found, test⟩ => ?_, fun found => ⟨_, found, rfl⟩⟩
  cases e with
  | create _ => cases test
  | append _ => cases test
  | delete => exact found

variable {tid : Tid} {logId : RawLogId}

namespace RawLogStore

variable {β : Type} (s : RawLogStore β)

/-- The transaction's edit has the entry for the log. -/
def EditAt (tid : Tid) (l : RawLogId) (e : RawLogEdit) : Prop :=
  ∃ edit, s.edits.lookup tid = some edit ∧ edit.lookup l = some e

/-- The chunk is in the tail that the transaction has for the log. -/
def InTail (tid : Tid) (l : RawLogId) (i : ChunkId) : Prop :=
  ∃ e tail, s.EditAt tid l e ∧ e.tail? = some tail ∧ i ∈ tail.chunks

/-- A handle of the log shares the `LazyDelete`. -/
def Shares (l : RawLogId) (lazy : RawLogEntry) : Prop :=
  ∃ h log, s.handles.lookup h = some log ∧ log.logId = l ∧ log.lazyDelete = some lazy

/-- The chunk is in the head of a persistent log, or in the `LazyDelete` that handles of a deleted
log still share. -/
def Owns (l : RawLogId) (i : ChunkId) : Prop :=
  (∃ entry, s.persistent.lookup l = some entry ∧ i ∈ entry.head.chunks) ∨
    s.lazyDeletes.lookup l = none ∧ ∃ lazy, s.Shares l lazy ∧ i ∈ lazy.head.chunks

structure Sound (capacity : Nat) (lazyOf : RawLogId → Option RawLogEntry) (s : RawLogStore β) :
    Prop where
  owned : Owned capacity s.chunks s.Owns s.InTail
  tailNodup : ∀ {tid l e tail}, s.EditAt tid l e → e.tail? = some tail → tail.chunks.Nodup
  headNodup : ∀ {l entry}, s.persistent.lookup l = some entry → entry.head.chunks.Nodup
  /-- the logs that have not been deleted are those in the table of the `LazyDelete`s -/
  live : ∀ {l}, s.persistent.lookup l = none ↔ s.lazyDeletes.lookup l = none
  /-- the log still has the chunks that it had when its `LazyDelete` was made -/
  lazySub : ∀ {l lazy entry}, s.lazyDeletes.lookup l = some lazy →
    s.persistent.lookup l = some entry → lazy.head.chunks ⊆ entry.head.chunks
  lazyTable : ∀ {l lazy}, s.lazyDeletes.lookup l = some lazy → lazyOf l = some lazy
  lazyHandle : ∀ {l lazy}, s.Shares l lazy → lazyOf l = some lazy
  lazyNodup : ∀ {l lazy}, lazyOf l = some lazy → lazy.head.chunks.Nodup
  lazyIssued : ∀ {l}, lazyOf l ≠ none → l < s.nextFreeLogId
  creating : ∀ {tid l tail}, s.EditAt tid l (.create tail) → l < s.nextFreeLogId ∧ lazyOf l = none
  creator : ∀ {tid tid' l tail tail'}, s.EditAt tid l (.create tail) →
    s.EditAt tid' l (.create tail') → tid = tid'
  appending : ∀ {tid l tail}, s.EditAt tid l (.append tail) → lazyOf l ≠ none

/-- What the store is opened with: the allocator holds the chunks of the logs, each once. -/
structure Opened (capacity : Nat) (persistent : RawLogStoreState) (chunks : ChunkSystem) : Prop where
  owned : Owned capacity chunks
    (fun l i => ∃ entry, persistent.lookup l = some entry ∧ i ∈ entry.head.chunks)
    (fun _ _ _ => False)
  nodup : ∀ {l entry}, persistent.lookup l = some entry → entry.head.chunks.Nodup

/-- A newly formatted store. -/
theorem Opened.empty (capacity : Nat) : Opened capacity ∅ (.init capacity) where
  owned :=
    { inv := ChunkSystem.Inv.init capacity
      tailAlloc := False.elim
      tailUnique := False.elim
      ownsHeld := fun ⟨_, found, _⟩ => nomatch found
      ownsQuiet := fun _ found => nomatch found
      ownsUnique := fun ⟨_, found, _⟩ => nomatch found }
  nodup h := nomatch h

/-! ## Edits -/

section

variable {s : RawLogStore β} (cur : s.currentEdit tid = .ok edit)
include cur

/-- After a transaction has set the entry of one log. -/
theorem editAt_setEdit {tid' : Tid} {l' : RawLogId} {new : RawLogEdit}
    (h : (s.setEdit tid (edit.insert l new)).EditAt tid' l' e) :
    tid' = tid ∧ l' = l ∧ e = new ∨ ¬ (tid' = tid ∧ l' = l) ∧ s.EditAt tid' l' e := by
  obtain ⟨edit', found, at_l⟩ := h
  rw [lookup_setEdit] at found
  split at found
  · next self =>
    cases found
    rw [lookup_insert_ite] at at_l
    split at at_l
    · next same =>
      cases at_l
      exact .inl ⟨self, same, rfl⟩
    · next other =>
      refine .inr ⟨fun both => other both.2, ?_⟩
      cases currentEdit_ok cur
      cases e' : s.edits.lookup tid with
      | none =>
        rw [e'] at at_l
        cases at_l
      | some edit =>
        rw [e'] at at_l
        exact ⟨edit, self ▸ e', at_l⟩
  · next other => exact .inr ⟨fun both => other both.1, edit', found, at_l⟩

theorem editAt_of_current (h : edit.lookup l = some e) : s.EditAt tid l e := by
  cases currentEdit_ok cur
  cases found : s.edits.lookup tid with
  | none =>
    rw [found] at h
    cases h
  | some edit =>
    rw [found] at h
    exact ⟨edit, found, h⟩

end

theorem isShared_iff {s : RawLogStore β} : s.isShared l = true ↔ ∃ lazy, s.Shares l lazy := by
  unfold isShared
  rw [List.any_eq_true]
  constructor
  · rintro ⟨⟨h, log⟩, mem, cond⟩
    obtain ⟨same, some⟩ := Bool.and_eq_true_iff.mp cond
    obtain ⟨lazy, has⟩ := isSome_iff_exists.mp some
    exact ⟨lazy, h, log, mem_lookup_iff.mpr mem, eq_of_beq same, has⟩
  · rintro ⟨lazy, h, log, found, same, has⟩
    refine ⟨⟨h, log⟩, mem_lookup_iff.mp found, Bool.and_eq_true_iff.mpr ⟨beq_of_eq same, ?_⟩⟩
    exact isSome_iff_exists.mpr ⟨lazy, has⟩

namespace Sound

variable {capacity : Nat} {lazyOf : RawLogId → Option RawLogEntry} {s t : RawLogStore β}

theorem lazyOf_of_persistent (sound : Sound capacity lazyOf s) (h : s.persistent.lookup l ≠ none) :
    ∃ lazy, s.lazyDeletes.lookup l = some lazy ∧ lazyOf l = some lazy := by
  obtain ⟨lazy, found⟩ := ne_none_iff_exists'.mp fun none => h (sound.live.mpr none)
  exact ⟨lazy, found, sound.lazyTable found⟩

theorem fromParts {persistent : RawLogStoreState} {chunks : ChunkSystem} (disk : BlockId → β)
    (opened : Opened capacity persistent chunks) :
    Sound capacity persistent.lookup (fromParts persistent chunks disk) where
  owned := by
    refine opened.owned.mono (fun l i h => ?_) fun tid l i h => ?_
    · rcases h with head | ⟨-, lazy, ⟨h, log, found, -⟩, -⟩
      · exact head
      · cases found
    · obtain ⟨e, tail, ⟨edit, found, -⟩, -⟩ := h
      cases found
  tailNodup := fun ⟨_, found, _⟩ => nomatch found
  headNodup := opened.nodup
  live := .rfl
  lazySub h h' := by
    cases h.symm.trans h'
    exact List.Subset.refl _
  lazyTable h := h
  lazyHandle := fun ⟨_, _, found, _⟩ => nomatch found
  lazyNodup h := opened.nodup h
  lazyIssued := fun {l} h => by
    have mem : l ∈ persistent.keys := mem_keys.mpr (lookup_isSome.mp (isSome_iff_ne_none.mpr h))
    unfold RawLogStore.fromParts
    cases e : persistent.keys.max? with
    | none => rw [max?_eq_none_iff.mp e] at mem; cases mem
    | some maxLogId => exact Nat.lt_succ_of_le ((max?_eq_some_iff.mp e).2 l mem)
  creating := fun ⟨_, found, _⟩ => nomatch found
  creator := fun ⟨_, found, _⟩ => nomatch found
  appending := fun ⟨_, found, _⟩ => nomatch found

section

variable (sound : Sound capacity lazyOf s)

include sound

/-- The operations of a transaction leave the persistent logs and the table of the `LazyDelete`s
alone. One entry of its edit may change, and a handle may share a `LazyDelete` of the table. -/
theorem edited (tid : Tid) (l : RawLogId) (new : RawLogEdit) (persistent : t.persistent = s.persistent)
    (lazyDeletes : t.lazyDeletes = s.lazyDeletes) (next : s.nextFreeLogId ≤ t.nextFreeLogId)
    (handles : ∀ l' lazy, t.Shares l' lazy → s.Shares l' lazy ∨ s.lazyDeletes.lookup l' = some lazy)
    (edits : ∀ tid' l' e, t.EditAt tid' l' e → s.EditAt tid' l' e ∨ tid' = tid ∧ l' = l ∧ e = new)
    (nodup : ∀ tail, new.tail? = some tail → tail.chunks.Nodup)
    (fresh : ∀ tail, new = .create tail → (∃ tail', s.EditAt tid l (.create tail')) ∨
      s.nextFreeLogId ≤ l ∧ l < t.nextFreeLogId)
    (known : ∀ tail, new = .append tail → lazyOf l ≠ none)
    (owned : Owned capacity t.chunks s.Owns t.InTail) : Sound capacity lazyOf t := by
  have creates : ∀ {tid' l' tail}, t.EditAt tid' l' (.create tail) →
      (∃ tail', s.EditAt tid' l' (.create tail')) ∨
        tid' = tid ∧ l' = l ∧ s.nextFreeLogId ≤ l ∧ l < t.nextFreeLogId := by
    intro tid' l' tail h
    rcases edits _ _ _ h with old | ⟨rfl, rfl, eq⟩
    · exact .inl ⟨tail, old⟩
    · exact (fresh tail eq.symm).imp_right fun bounds => ⟨rfl, rfl, bounds⟩
  have owns : ∀ l i, t.Owns l i → s.Owns l i := by
    rintro l i (⟨entry, found, mem⟩ | ⟨absent, lazy, shares, mem⟩)
    · exact .inl ⟨entry, persistent ▸ found, mem⟩
    rw [lazyDeletes] at absent
    rcases handles l lazy shares with old | table
    · exact .inr ⟨absent, lazy, old, mem⟩
    · cases absent.symm.trans table
  exact
    { owned := owned.mono owns fun _ _ _ h => h
      tailNodup := fun {_ _ _ tail} h has => by
        rcases edits _ _ _ h with old | ⟨-, -, rfl⟩
        · exact sound.tailNodup old has
        · exact nodup tail has
      headNodup := fun h => sound.headNodup (persistent ▸ h)
      live := by
        rw [persistent, lazyDeletes]
        exact sound.live
      lazySub := fun h h' => sound.lazySub (lazyDeletes ▸ h) (persistent ▸ h')
      lazyTable := fun h => sound.lazyTable (lazyDeletes ▸ h)
      lazyHandle := fun h => (handles _ _ h).elim sound.lazyHandle sound.lazyTable
      lazyNodup := sound.lazyNodup
      lazyIssued := fun h => (sound.lazyIssued h).trans_le next
      creating := fun h => by
        rcases creates h with ⟨tail', old⟩ | ⟨-, rfl, lower, upper⟩
        · exact ⟨(sound.creating old).1.trans_le next, (sound.creating old).2⟩
        · refine ⟨upper, not_not.mp fun some => ?_⟩
          exact absurd (sound.lazyIssued some) lower.not_gt
      creator := fun h h' => by
        rcases creates h with ⟨tail, old⟩ | ⟨rfl, rfl, lower, -⟩ <;>
          rcases creates h' with ⟨tail', old'⟩ | ⟨rfl, same, lower', -⟩
        · exact sound.creator old old'
        · exact absurd (sound.creating old).1 (same ▸ lower'.not_gt)
        · exact absurd (sound.creating old').1 lower.not_gt
        · rfl
      appending := fun h => by
        rcases edits _ _ _ h with old | ⟨-, rfl, eq⟩
        · exact sound.appending old
        · exact known _ eq.symm }

/-- No entry of an edit changes. -/
theorem kept (persistent : t.persistent = s.persistent) (lazyDeletes : t.lazyDeletes = s.lazyDeletes)
    (next : s.nextFreeLogId ≤ t.nextFreeLogId)
    (handles : ∀ l' lazy, t.Shares l' lazy → s.Shares l' lazy ∨ s.lazyDeletes.lookup l' = some lazy)
    (edits : ∀ tid' l' e, t.EditAt tid' l' e → s.EditAt tid' l' e)
    (owned : Owned capacity t.chunks s.Owns t.InTail) :
    Sound capacity lazyOf t :=
  sound.edited 0 0 .delete persistent lazyDeletes next handles (fun _ _ _ h => .inl (edits _ _ _ h))
    nofun nofun nofun owned

/-- A transaction writes to logs that have been created. -/
theorem issued {tail : RawLogTail} (at_l : s.EditAt tid l e) (has : e.tail? = some tail) : l < s.nextFreeLogId := by
  cases e with
  | create _ => exact (sound.creating at_l).1
  | append _ => exact sound.lazyIssued (sound.appending at_l)
  | delete => cases has

theorem newTx (tid : Tid) : Sound capacity lazyOf (s.newTx tid) :=
  { sound with owned := sound.owned.newTx tid }

end

/-- A transaction sets the entry of a log to one without chunks. -/
theorem inTail_setEdit {new : RawLogEdit} (cur : s.currentEdit tid = .ok edit)
    (empty : ∀ tail, new.tail? = some tail → tail.chunks = []) {tid' : Tid} {l' : RawLogId} {i : ChunkId}
    (h : (s.setEdit tid (edit.insert l new)).InTail tid' l' i) : ¬ (tid' = tid ∧ l' = l) ∧ s.InTail tid' l' i := by
  obtain ⟨e, tail, at_l, has, mem⟩ := h
  rcases editAt_setEdit cur at_l with ⟨-, -, rfl⟩ | ⟨other, old⟩
  · rw [empty tail has] at mem
    cases mem
  · exact ⟨other, e, tail, old, has, mem⟩

section

variable (sound : Sound capacity lazyOf s)

include sound

theorem createLog (run : s.createLog tid = .ok t) : Sound capacity lazyOf t := by
  obtain ⟨-, edit, cur, rfl⟩ := createLog_ok run
  have empty : ∀ tail, (create .new).tail? = some tail → tail.chunks = [] := by
    rintro tail ⟨⟩
    rfl
  refine sound.edited tid s.nextFreeLogId (.create .new) rfl rfl
    (Nat.le_succ _) (fun l' lazy shares => ?_) (fun tid' l' e h => ?_) (fun tail has => ?_)
    (fun tail _ => .inr ⟨le_rfl, Nat.lt_succ_self _⟩) nofun ?_
  · obtain ⟨h, log, found, same, has⟩ := shares
    rcases addHandle_found found with ⟨-, rfl⟩ | found
    · cases has
    · exact .inl ⟨h, log, found, same, has⟩
  · exact (editAt_setEdit cur h).symm.imp_left And.right
  · rw [empty tail has]
    exact nodup_nil
  · exact sound.owned.mono (fun _ _ h => h) fun tid' l' i h => (inTail_setEdit cur empty h).2

/-- Opening a log for appending: the tail has no chunks yet. -/
theorem prepareAppend {entry : RawLogEntry} (there : s.persistent.lookup logId = some entry)
    (run : s.prepareAppend tid logId entry = .ok t) :
    Sound capacity lazyOf t ∧ t.lazyDeletes = s.lazyDeletes ∧ t.persistent = s.persistent := by
  obtain ⟨-, edit, edit', cur, rfl, made⟩ := prepareAppend_ok run
  rcases made with rfl | ⟨tail, -, made, rfl⟩
  · -- the log is already open in this transaction
    have same : ∀ tid' l' e, (s.setEdit tid edit').EditAt tid' l' e → s.EditAt tid' l' e := by
      rintro tid' l' e ⟨edit, found, at_l⟩
      rw [lookup_setEdit] at found
      split at found
      · next self =>
        cases found
        exact self ▸ editAt_of_current cur at_l
      · exact ⟨edit, found, at_l⟩
    refine ⟨sound.kept rfl rfl le_rfl (fun _ _ h => .inl h) same ?_, rfl, rfl⟩
    refine sound.owned.mono (fun _ _ h => h) fun tid' l' i h => ?_
    obtain ⟨e, tail, at_l, has, mem⟩ := h
    exact ⟨e, tail, same _ _ _ at_l, has, mem⟩
  · obtain ⟨free, -, eq⟩ := bind_ok.mp made
    cases eq
    refine ⟨sound.edited tid logId (.append _) rfl rfl le_rfl
      (fun _ _ h => .inl h) (fun tid' l' e h => (editAt_setEdit cur h).symm.imp_left And.right)
      ?_ nofun ?_ ?_, rfl, rfl⟩
    · rintro tail ⟨⟩
      exact nodup_nil
    · obtain ⟨lazy, -, has⟩ := sound.lazyOf_of_persistent (by rw [there]; exact nofun)
      rw [has]
      exact fun _ _ => nofun
    · refine sound.owned.mono (fun _ _ h => h) fun tid' l' i h => (inTail_setEdit cur ?_ h).2
      rintro tail ⟨⟩
      rfl

theorem addHandle (log : RawLog) (lazy : ∀ z, log.lazyDelete = some z → s.lazyDeletes.lookup log.logId = some z) :
    Sound capacity lazyOf (s.addHandle log) := by
  refine sound.kept rfl rfl le_rfl (fun l' z shares => ?_) (fun _ _ _ h => h) sound.owned
  obtain ⟨h, log', found, rfl, has⟩ := shares
  rcases addHandle_found found with ⟨-, rfl⟩ | found
  · exact .inr (lazy z has)
  · exact .inl ⟨h, log', found, rfl, has⟩

variable {canAppend : Bool} (run : s.openLog tid logId canAppend = .ok t)
include run

/-- A log is opened from its persistent entry: without one it has no `LazyDelete` in the table. -/
theorem openLog_ok :
    ∃ lazy entry mid, s.lazyDeletes.lookup logId = some lazy ∧ s.persistent.lookup logId = some entry ∧
      (s.prepareAppend tid logId entry = .ok mid ∨ mid = s) ∧
      t = mid.addHandle ⟨logId, some entry, some lazy, entry.head.numBlocks, canAppend⟩ := by
  unfold RawLogStore.openLog at run
  split at run
  · cases run
  · next lazy table =>
    split at run
    · next entry found =>
      obtain ⟨mid, prepare, eq⟩ := bind_ok.mp run
      cases eq
      refine ⟨lazy, entry, mid, table, found, ?_, rfl⟩
      unfold prepareOpen at prepare
      split at prepare
      · exact .inl prepare
      · exact .inr (Except.ok.inj prepare).symm
    · next gone => cases (sound.live.mp gone).symm.trans table

theorem openLog : Sound capacity lazyOf t := by
  obtain ⟨lazy, entry, mid, table, found, prepare | rfl, rfl⟩ := sound.openLog_ok run
  · obtain ⟨sound', lazyDeletes, -⟩ := sound.prepareAppend found prepare
    refine sound'.addHandle _ fun z has => ?_
    cases has
    rw [lazyDeletes]
    exact table
  · refine sound.addHandle _ fun z has => ?_
    cases has
    exact table

end

end Sound

variable {h : Nat}

theorem shares_erase {s : RawLogStore β} {lazy : RawLogEntry}
    (shares : Shares { s with handles := s.handles.erase h } l lazy) : s.Shares l lazy := by
  obtain ⟨h', log, found, same, has⟩ := shares
  rw [lookup_erase_ite] at found
  split at found
  · cases found
  · exact ⟨h', log, found, same, has⟩

theorem dropHandle_ok {s t : RawLogStore β} (run : s.dropHandle tid h = .ok t) :
    ∃ log writeSet chunks, s.handles.lookup h = some log ∧
      (chunks = s.chunks ∨ ∃ lazy, log.lazyDelete = some lazy ∧ s.lazyDeletes.lookup log.logId = none ∧
        (¬ ∃ lazy', Shares { s with handles := s.handles.erase h } log.logId lazy') ∧
        s.chunks.deallocBatch tid lazy.head.chunks = .ok chunks) ∧
      t = { s with handles := s.handles.erase h, writeSet, chunks } := by
  obtain ⟨log, found, run⟩ := bind_ok.mp run
  dsimp only at run
  generalize mid_eq : (if log.canAppend = true then
    RawLogStore.removeFromWriteSet { s with handles := s.handles.erase h } log.logId
    else { s with handles := s.handles.erase h }) = mid at run
  obtain ⟨writeSet, rfl⟩ : ∃ writeSet, mid = { s with handles := s.handles.erase h, writeSet } := by
    subst mid_eq
    split <;> exact ⟨_, rfl⟩
  split at run
  · next lazy has =>
    split at run
    · cases run
      exact ⟨log, writeSet, s.chunks, handle_ok found, .inl rfl, rfl⟩
    · next last =>
      obtain ⟨detached, alone⟩ := not_or.mp (mt Bool.or_eq_true_iff.mpr last)
      obtain ⟨chunks, freed, eq⟩ := bind_ok.mp run
      cases eq
      refine ⟨log, writeSet, chunks, handle_ok found, .inr ⟨lazy, has, ?_, ?_, freed⟩, rfl⟩
      · exact not_isSome_iff_eq_none.mp detached
      · exact mt isShared_iff.mpr alone
  · cases run
    exact ⟨log, writeSet, s.chunks, handle_ok found, .inl rfl, rfl⟩

/-- What a successful append does. -/
theorem append_ok {s t : RawLogStore β} {buf : List β} {pos : BlockId} (run : s.append tid h buf = .ok (pos, t)) :
    ∃ log edit e tail needed newChunks chunks blocks numBlocks,
      s.handles.lookup h = some log ∧ pos = log.appendPos ∧ s.currentEdit tid = .ok edit ∧
      edit.lookup log.logId = some e ∧ e.tail? = some tail ∧
      tail.calcNeededChunks buf.length = .ok needed ∧
      allocNeeded s.chunks tid needed = .ok (newChunks, chunks) ∧
      RawLogTail.prepareBlocks { tail with chunks := tail.chunks ++ newChunks } tail.numBlocks
        buf.length = .ok blocks ∧
      addU32 tail.numBlocks (buf.length % 2 ^ 32) = .ok numBlocks ∧
      t = { s with
        chunks
        disk := writeBlocks s.disk blocks buf
        edits := s.edits.insert tid (edit.insert log.logId
          (e.withTail { tail with chunks := tail.chunks ++ newChunks, numBlocks }))
        handles := s.handles.insert h { log with appendPos := log.appendPos + buf.length } } := by
  obtain ⟨log, found, run⟩ := bind_ok.mp run
  obtain ⟨-, run⟩ := ite_ok.mp run
  obtain ⟨edit, cur, run⟩ := bind_ok.mp run
  split at run
  · cases run
  · next tail has =>
    obtain ⟨mid, act, eq⟩ := bind_ok.mp run
    cases eq
    obtain ⟨needed, count, act⟩ := bind_ok.mp act
    obtain ⟨⟨newChunks, chunks⟩, alloc, act⟩ := bind_ok.mp act
    obtain ⟨blocks, prepared, act⟩ := bind_ok.mp act
    obtain ⟨numBlocks, sum, eq⟩ := bind_ok.mp act
    cases eq
    rw [tail?_eq] at has
    obtain ⟨e, at_l, has⟩ := bind_eq_some_iff.mp has
    refine ⟨log, edit, e, tail, needed, newChunks, chunks, blocks, numBlocks, handle_ok found,
      rfl, cur, at_l, has, count, alloc, prepared, sum, ?_⟩
    rw [setTail_eq at_l has]
    rfl

namespace Sound

variable {capacity : Nat} {lazyOf : RawLogId → Option RawLogEntry} {s t : RawLogStore β}

section

variable (sound : Sound capacity lazyOf s)

include sound

/-- The new chunks are free ones, and they go to the tail of one log. -/
theorem allocNeeded {needed : Nat} {newChunks : List ChunkId} {chunks : ChunkSystem} (l : RawLogId)
    (tails : Tid → RawLogId → ChunkId → Prop) (run : allocNeeded s.chunks tid needed = .ok (newChunks, chunks))
    (more : ∀ tid' l' i, tails tid' l' i → s.InTail tid' l' i ∨ tid' = tid ∧ l' = l ∧ i ∈ newChunks) :
    Owned capacity chunks s.Owns tails ∧ newChunks.Nodup ∧
    ∀ i ∈ newChunks, ∀ tid' l', ¬ s.InTail tid' l' i := by
  unfold RawLogStore.allocNeeded at run
  split at run
  · obtain ⟨-, -, -, nodup, free, -⟩ := sound.owned.inv.allocBatch run
    refine ⟨sound.owned.took run more, nodup, fun i mem tid' l' tail => ?_⟩
    obtain ⟨edit, found, alloc⟩ := sound.owned.tailAlloc tail
    rw [(sound.owned.inv.untouched (free i mem)).2 tid' edit found] at alloc
    cases alloc
  · cases run
    refine ⟨sound.owned.mono (fun _ _ h => h) fun tid' l' i h => ?_, nodup_nil, nofun⟩
    exact (more tid' l' i h).resolve_right (nomatch ·.2.2)

theorem append {buf : List β} {pos : BlockId} (run : s.append tid h buf = .ok (pos, t)) : Sound capacity lazyOf t := by
  obtain ⟨log, edit, e, tail, needed, newChunks, chunks, blocks, numBlocks, found, -, cur, at_l, has,
    -, alloc, -, -, rfl⟩ := append_ok run
  have old := editAt_of_current cur at_l
  obtain ⟨owned, nodup, apart⟩ := sound.allocNeeded log.logId (s.setEdit tid (edit.insert log.logId
      (e.withTail { tail with chunks := tail.chunks ++ newChunks, numBlocks }))).InTail alloc <| by
    rintro tid' l' i ⟨e', tail', at_l', has', mem⟩
    rcases editAt_setEdit cur at_l' with ⟨rfl, rfl, rfl⟩ | ⟨-, old'⟩
    · cases (tail?_withTail has _).symm.trans has'
      exact (mem_append.mp mem).imp (fun mem => ⟨e, tail, old, has, mem⟩) fun mem => ⟨rfl, rfl, mem⟩
    · exact .inl ⟨e', tail', old', has', mem⟩
  refine sound.edited tid log.logId _ rfl rfl le_rfl (fun l' lazy shares => ?_)
    (fun tid' l' e' h => (editAt_setEdit cur h).symm.imp_left And.right) (fun tail' has' => ?_)
    (fun tail' eq => ?_) (fun tail' eq => ?_) owned
  · obtain ⟨h', log', found', rfl, has'⟩ := shares
    rw [lookup_insert_ite] at found'
    split at found'
    · cases found'
      exact .inl ⟨h, log, found, rfl, has'⟩
    · exact .inl ⟨h', log', found', rfl, has'⟩
  · cases (tail?_withTail has _).symm.trans has'
    refine (sound.tailNodup old has).append nodup fun i mem mem' => ?_
    exact apart i mem' tid log.logId ⟨e, tail, old, has, mem⟩
  · cases e with
    | create _ => exact .inl ⟨_, old⟩
    | append _ => cases eq
    | delete => cases eq
  · cases e with
    | create _ => cases eq
    | append _ => exact sound.appending old
    | delete => cases eq

/-- The tail that a deletion discards goes back to the allocator. -/
theorem deleteLog (run : s.deleteLog tid logId = .ok t) : Sound capacity lazyOf t := by
  obtain ⟨edit, chunks, cur, release, rfl⟩ := deleteLog_ok run
  have tails {tid' : Tid} {l' : RawLogId} {i : ChunkId}
      (h : (s.setEdit tid (edit.insert logId .delete)).InTail tid' l' i) :=
    inTail_setEdit cur (by rintro _ ⟨⟩) h
  suffices owned : Owned capacity chunks s.Owns (s.setEdit tid (edit.insert logId .delete)).InTail from
    sound.edited tid logId .delete rfl rfl le_rfl (fun _ _ h => .inl h)
      (fun tid' l' e h => (editAt_setEdit cur h).symm.imp_left And.right) nofun nofun nofun owned
  rcases release with ⟨-, rfl⟩ | ⟨tail, has, freed⟩
  · exact sound.owned.mono (fun _ _ h => h) fun _ _ _ h => (tails h).2
  · rw [tail?_eq] at has
    obtain ⟨e, at_l, has⟩ := bind_eq_some_iff.mp has
    have old := editAt_of_current cur at_l
    have mine : ∀ i ∈ tail.chunks, s.InTail tid logId i := fun i mem => ⟨e, tail, old, has, mem⟩
    obtain ⟨_, found, -⟩ := bind_ok.mp freed
    have others : ∀ tid' l' i, (s.setEdit tid (edit.insert logId .delete)).InTail tid' l' i →
        s.InTail tid' l' i ∧ i ∉ tail.chunks := by
      refine fun tid' l' i h => ⟨(tails h).2, fun mem => (tails h).1 ?_⟩
      cases sound.owned.tail_tid (tails h).2 (mine i mem)
      exact ⟨rfl, sound.owned.tailUnique (tails h).2 (mine i mem)⟩
    obtain ⟨chunks', freed', -, owned⟩ := sound.owned.gave (ChunkSystem.current_ok.mp found)
      (sound.tailNodup old has) (fun i mem => .inl ⟨logId, mine i mem⟩)
      (fun l i h => ⟨h, fun mem => sound.owned.tail_not_owned (mine i mem) h⟩) others
    cases freed.symm.trans freed'
    exact owned

/-- Without a handle, its `LazyDelete` is released if it was the last holder. -/
theorem dropHandle (run : s.dropHandle tid h = .ok t) : Sound capacity lazyOf t := by
  obtain ⟨log, writeSet, chunks, found, release, rfl⟩ := dropHandle_ok run
  have owns : ∀ l i, Owns { s with handles := s.handles.erase h } l i → s.Owns l i := by
    rintro l i (head | ⟨absent, lazy, holder, mem⟩)
    · exact .inl head
    · exact .inr ⟨absent, lazy, shares_erase holder, mem⟩
  suffices owned : Owned capacity chunks (Owns { s with handles := s.handles.erase h }) s.InTail from
    { sound with owned, lazyHandle := fun h => sound.lazyHandle (shares_erase h) }
  rcases release with rfl | ⟨lazy, has, absent, alone, freed⟩
  · exact sound.owned.mono owns fun _ _ _ h => h
  have holder : s.Shares log.logId lazy := ⟨h, log, found, rfl, has⟩
  have mine : ∀ i ∈ lazy.head.chunks, s.Owns log.logId i := fun i mem =>
    .inr ⟨absent, lazy, holder, mem⟩
  have others : ∀ l i, Owns { s with handles := s.handles.erase h } l i → s.Owns l i ∧
    i ∉ lazy.head.chunks := by
    refine fun l i own => ⟨owns l i own, fun mem => ?_⟩
    cases sound.owned.ownsUnique (owns l i own) (mine i mem)
    -- the log is gone and nobody shares its `LazyDelete` any more
    rcases own with ⟨entry, head, -⟩ | ⟨-, lazy', holder', -⟩
    · cases (sound.live.mpr absent).symm.trans head
    · exact alone ⟨lazy', holder'⟩
  obtain ⟨_, current, -⟩ := bind_ok.mp freed
  obtain ⟨chunks', freed', -, owned⟩ := sound.owned.gave (ChunkSystem.current_ok.mp current)
    (sound.lazyNodup (sound.lazyHandle holder)) (fun i mem => .inr ⟨log.logId, mine i mem⟩) others
    fun tid' l' i tail => ⟨tail, fun mem => sound.owned.tail_not_owned tail (mine i mem)⟩
  cases freed.symm.trans freed'
  exact owned

end

theorem editAt_erase {tid' : Tid} (edits : t.edits = s.edits.erase tid) (h : t.EditAt tid' l e) :
    tid' ≠ tid ∧ s.EditAt tid' l e := by
  obtain ⟨edit, found, at_l⟩ := h
  rw [edits, lookup_erase_ite] at found
  split at found
  · cases found
  · next other => exact ⟨other, edit, found, at_l⟩

theorem abort (sound : Sound capacity lazyOf s) (run : s.abort tid = .ok t) : Sound capacity lazyOf t := by
  obtain ⟨chunks, ended, eq⟩ := bind_ok.mp run
  cases eq
  refine sound.kept rfl rfl le_rfl (fun _ _ h => .inl h)
    (fun _ _ _ h => (editAt_erase rfl h).2) (sound.owned.abort ended fun tid' l' i h => ?_)
  obtain ⟨e, tail, at_l, has, mem⟩ := h
  obtain ⟨other, old⟩ := editAt_erase rfl at_l
  exact ⟨⟨e, tail, old, has, mem⟩, other⟩

end Sound

end RawLogStore

end OmegaOsx.MlsDisk
