import OmegaOsx.MlsDisk.RawLogRead

/-!
# The contents of raw logs, one transaction after another

Each transaction opens logs, appends to them with the handles it has opened, and commits or aborts.
`LoggedStore` keeps beside the store what each log should contain: the blocks appended by committed
transactions, and those of the current one.
-/

namespace OmegaOsx.MlsDisk

open RawLogStore ChunkSystem List RawLogTail RawLogStoreEdit Table Option

variable {β : Type}

/-- The store with what its logs should contain; `first` is the first handle that the current
transaction has opened, and `through` counts the blocks that were appended with each handle. -/
structure LoggedStore (β : Type) where
  store : RawLogStore β
  committed : RawLogId → List β
  pending : Tid → RawLogId → List β
  first : Nat
  through : Nat → Nat

variable {store : RawLogStore β} {tid : Tid} {l logId : RawLogId}
  {lazyOf' : RawLogId → Option RawLogEntry}

namespace LoggedStore

/-- A newly formatted store. -/
def start (capacity : Nat) (disk : BlockId → β) : LoggedStore β where
  store := .fromParts ∅ (.init capacity) disk
  committed _ := []
  pending _ _ := []
  first := 0
  through _ := 0

variable (s : LoggedStore β)

/-- What a transaction should read from a log. -/
def contents (tid : Tid) (l : RawLogId) : List β := s.committed l ++ s.pending tid l

def record (store : RawLogStore β) : RawLogOp β → LoggedStore β
  | .newTx _ => { s with store, first := store.nextHandle }
  | .append tid h buf =>
    { s with
      store
      pending := fun tid' l =>
        if tid' = tid ∧ (s.store.handles.lookup h).map (·.logId) = some l then
          s.pending tid' l ++ buf.1
        else s.pending tid' l
      through := fun h' => if h' = h then s.through h' + buf.1.length else s.through h' }
  | .commit tid =>
    { s with
      store
      committed := fun l => s.committed l ++ s.pending tid l
      pending := fun tid' l => if tid' = tid then [] else s.pending tid' l
      first := store.nextHandle }
  | .abort tid =>
    { s with
      store
      pending := fun tid' l => if tid' = tid then [] else s.pending tid' l
      first := store.nextHandle }
  | .create _ | .openLog .. | .delete .. | .drop .. => { s with store }

def exec (s : LoggedStore β) (op : RawLogOp β) : Res (LoggedStore β) := do
  let store ← s.store.exec op
  pure (s.record store op)

/-- One transaction after another, each appending with its own handles. -/
def Sequential : RawLogOp β → Prop
  | .newTx _ => s.store.chunks.ongoing.keys = []
  | .append _ h _ => s.first ≤ h
  | .delete .. => False
  | .create _ | .openLog .. | .drop .. | .commit _ | .abort _ => True

/-- The range of a buffer: it has fewer than `2 ^ 32` blocks, which are 16 TiB. -/
def Small : RawLogOp β → Prop
  | .append _ _ buf => buf.1.length < 2 ^ 32
  | _ => True

instance (s : LoggedStore β) (op : RawLogOp β) : Decidable (s.Sequential op) := by
  cases op <;> unfold Sequential <;> infer_instance

instance (op : RawLogOp β) : Decidable (Small op) := by
  cases op <;> unfold Small <;> infer_instance

def Step (op : RawLogOp β) (t : LoggedStore β) : Prop :=
  s.Sequential op ∧ Small op ∧ s.exec op = .ok t

/-- A handle of the current transaction has the committed entry of its log, and it is as many blocks
further than this as were appended with it. -/
structure Own (persistent : RawLogStoreState) (through : Nat → Nat) (h : Nat) (log : RawLog) :
    Prop where
  entry : log.logEntry = persistent.lookup log.logId
  pos : log.appendPos = (log.logEntry.elim 0 fun entry => entry.head.numBlocks) + through h

/-- Every log looks to every transaction as it should. -/
structure Faithful (capacity : Nat) (lazyOf : RawLogId → Option RawLogEntry) (s : LoggedStore β) :
    Prop where
  sound : Sound capacity lazyOf s.store
  view : ∀ tid l, View s.store.disk (s.store.headAt l) (s.store.tailAt tid l) (s.committed l)
    (s.pending tid l)
  noDelete : ∀ {tid l}, ¬ s.store.EditAt tid l .delete
  single : ∀ {tid tid'}, s.store.chunks.ongoing.lookup tid ≠ none →
    s.store.chunks.ongoing.lookup tid' ≠ none → tid = tid'
  active : ∀ {tid}, s.store.edits.lookup tid ≠ none → s.store.chunks.ongoing.lookup tid ≠ none
  own : ∀ {h log}, s.store.handles.lookup h = some log → s.first ≤ h →
    Own s.store.persistent s.through h log
  fresh : ∀ {h log}, s.store.handles.lookup h = some log → h < s.store.nextHandle
  unused : ∀ {h}, s.store.nextHandle ≤ h → s.through h = 0

theorem Faithful.start (capacity : Nat) (disk : BlockId → β) :
    Faithful capacity (fun _ => none) (start capacity disk) where
  sound := Sound.fromParts disk (.empty capacity)
  view _ _ := View.absent disk
  noDelete := fun ⟨_, found, _⟩ => nomatch found
  single h := absurd rfl h
  active h := absurd rfl h
  own found := nomatch found
  fresh found := nomatch found
  unused _ := rfl

namespace Faithful

variable {capacity : Nat} {lazyOf : RawLogId → Option RawLogEntry} {s : LoggedStore β}

/-- What an operation inside of a transaction leaves as it is. -/
structure Proceeds (s : LoggedStore β) (through : Nat → Nat) (store : RawLogStore β) : Prop where
  persistent : store.persistent = s.store.persistent
  going : ∀ tid',
    store.chunks.ongoing.lookup tid' ≠ none ↔ s.store.chunks.ongoing.lookup tid' ≠ none
  own : ∀ {h log}, store.handles.lookup h = some log → s.first ≤ h →
    Own s.store.persistent through h log
  fresh : ∀ {h log}, store.handles.lookup h = some log → h < store.nextHandle
  unused : ∀ {h}, store.nextHandle ≤ h → through h = 0

variable {through : Nat → Nat}

theorem Proceeds.headAt (proceeds : Proceeds s through store) (l : RawLogId) :
    store.headAt l = s.store.headAt l := by
  unfold RawLogStore.headAt
  rw [proceeds.persistent]

section

variable (faithful : Faithful capacity lazyOf s)

include faithful

/-- A log that has not been created yet. -/
theorem persistent_next : s.store.persistent.lookup s.store.nextFreeLogId = none := by
  by_contra found
  obtain ⟨lazy, -, has⟩ := faithful.sound.lazyOf_of_persistent found
  exact absurd (faithful.sound.lazyIssued (has ▸ nofun)) (lt_irrefl _)

/-- Beginning a transaction. -/
theorem newTx (alone : s.store.chunks.ongoing.keys = []) :
    Faithful capacity lazyOf (s.record (s.store.newTx tid) (.newTx tid)) := by
  have nobody tid' : s.store.chunks.ongoing.lookup tid' = none := by
    refine AList.lookup_eq_none.mpr fun mem => ?_
    rw [AList.mem_keys, alone] at mem
    cases mem
  have began tid' : (s.store.newTx tid).chunks.ongoing.lookup tid' =
      if tid' = tid then some ∅ else none := by
    show (s.store.chunks.newTx tid).ongoing.lookup tid' = _
    unfold ChunkSystem.newTx
    rw [nobody tid, if_neg (by simp)]
    rw [lookup_insert_ite, nobody]
  exact
    { sound := faithful.sound.newTx tid
      view := faithful.view
      noDelete := faithful.noDelete
      single := fun {t t'} h h' => by
        replace h : (s.store.newTx tid).chunks.ongoing.lookup t ≠ none := h
        replace h' : (s.store.newTx tid).chunks.ongoing.lookup t' ≠ none := h'
        rw [began] at h h'
        rw [of_not_not fun other => h (if_neg other), of_not_not fun other => h' (if_neg other)]
      active := fun h => absurd (nobody _) (faithful.active h)
      own := fun found after => absurd (faithful.fresh found) (not_lt.mpr after)
      fresh := faithful.fresh
      unused := faithful.unused }

/-- A transaction sets the entry of a log, with a view for it, and may open a handle. -/
theorem edited {edit : RawLogStoreEdit} (cur : s.store.currentEdit tid = .ok edit) {new : RawLogEdit}
    {pending : Tid → RawLogId → List β} (sound : Sound capacity lazyOf' store)
    (edits : store.edits = s.store.edits.insert tid (edit.insert l new)) (notDelete : new ≠ .delete)
    (here : View store.disk (s.store.headAt l) new.tail? (s.committed l) (pending tid l))
    (elsewhere : ∀ tid' l', ¬ (tid' = tid ∧ l' = l) → View store.disk (s.store.headAt l')
      (s.store.tailAt tid' l') (s.committed l') (pending tid' l'))
    (proceeds : Proceeds s through store) :
    Faithful capacity lazyOf' { s with store, pending, through } := by
  have at_tid {tid' : Tid} {l' : RawLogId} {e : RawLogEdit} (h : store.EditAt tid' l' e) :
      s.store.EditAt tid' l' e ∨ tid' = tid ∧ l' = l ∧ e = new := by
    obtain ⟨edit', found, at_l⟩ := h
    rw [edits] at found
    exact (editAt_setEdit cur ⟨edit', found, at_l⟩).symm.imp_left And.right
  have tail tid' l' : store.tailAt tid' l' =
      if tid' = tid ∧ l' = l then new.tail? else s.store.tailAt tid' l' := by
    rw [← tailAt_setEdit cur]
    unfold tailAt
    rw [edits]
    rfl
  have ongoing := ongoing_of_current cur
  exact
    { sound
      view := fun tid' l' => by
        rw [proceeds.headAt, tail]
        by_cases same : tid' = tid ∧ l' = l
        · rw [if_pos same, same.1, same.2]
          exact here
        · rw [if_neg same]
          exact elsewhere tid' l' same
      noDelete := fun h => by
        rcases at_tid h with old | ⟨-, -, eq⟩
        · exact faithful.noDelete old
        · exact notDelete eq.symm
      single := fun h h' => faithful.single ((proceeds.going _).mp h) ((proceeds.going _).mp h')
      active := fun {tid'} h => by
        rw [edits, lookup_insert_ite] at h
        refine (proceeds.going tid').mpr ?_
        by_cases self : tid' = tid
        · exact self ▸ ongoing
        · rw [if_neg self] at h
          exact faithful.active h
      own := fun found after => proceeds.persistent ▸ proceeds.own found after
      fresh := proceeds.fresh
      unused := proceeds.unused }

variable {h pos : Nat} {log : RawLog} {tid' : Tid}

theorem fresh_addHandle {log' : RawLog} (found : (s.store.addHandle log).handles.lookup h = some log') :
    h < s.store.nextHandle + 1 := by
  rcases addHandle_found found with ⟨rfl, -⟩ | found
  · exact Nat.lt_succ_self _
  · exact (faithful.fresh found).trans (Nat.lt_succ_self _)

theorem unused_addHandle (beyond : s.store.nextHandle + 1 ≤ h) : s.through h = 0 :=
  faithful.unused (Nat.le_of_succ_le beyond)

theorem createLog (run : s.store.createLog tid = .ok store) :
    Faithful capacity lazyOf { s with store } := by
  have sound := faithful.sound.createLog run
  obtain ⟨-, edit, cur, rfl⟩ := createLog_ok run
  have absent := faithful.persistent_next
  have head : s.store.headAt s.store.nextFreeLogId = .new := by
    unfold headAt
    rw [absent]
    rfl
  have noTail : s.store.tailAt tid s.store.nextFreeLogId = none := by
    cases has : s.store.tailAt tid s.store.nextFreeLogId with
    | none => rfl
    | some tail =>
      rw [tailAt_of_current cur, tail?_eq] at has
      obtain ⟨e, at_l, has⟩ := bind_eq_some_iff.mp has
      exact absurd (faithful.sound.issued (editAt_of_current cur at_l) has) (lt_irrefl _)
  refine faithful.edited cur sound rfl nofun ?_ (fun tid' l' _ => faithful.view tid' l')
    ⟨rfl, fun _ => .rfl, ?_, ?_, faithful.unused_addHandle⟩
  · have view := faithful.view tid s.store.nextFreeLogId
    rw [head, noTail] at view
    rw [head]
    exact view.opened .new rfl rfl
  · intro h log found after
    rcases addHandle_found found with ⟨rfl, rfl⟩ | found
    · refine ⟨absent.symm, ?_⟩
      show 0 = 0 + s.through s.store.nextHandle
      rw [faithful.unused le_rfl]
    · exact faithful.own found after
  · exact faithful.fresh_addHandle

/-- No entry of an edit changes, and nothing is written. -/
theorem kept (sound : Sound capacity lazyOf' store) (disk : store.disk = s.store.disk)
    (edits : ∀ tid', (store.edits.lookup tid').getD ∅ = (s.store.edits.lookup tid').getD ∅)
    (active : ∀ {tid'}, store.edits.lookup tid' ≠ none → s.store.edits.lookup tid' ≠ none ∨
      s.store.chunks.ongoing.lookup tid' ≠ none) (proceeds : Proceeds s s.through store) :
    Faithful capacity lazyOf' { s with store } := by
  have at_tid {tid' : Tid} {l' : RawLogId} {e : RawLogEdit} (h : store.EditAt tid' l' e) :
      s.store.EditAt tid' l' e := by
    rw [editAt_iff] at h ⊢
    rw [← edits]
    exact h
  exact
    { sound
      view := fun tid' l' => by
        have tail : store.tailAt tid' l' = s.store.tailAt tid' l' := by
          unfold tailAt
          rw [edits]
        rw [disk, proceeds.headAt, tail]
        exact faithful.view tid' l'
      noDelete := fun h => faithful.noDelete (at_tid h)
      single := fun h h' => faithful.single ((proceeds.going _).mp h) ((proceeds.going _).mp h')
      active := fun h => (proceeds.going _).mpr ((active h).elim faithful.active id)
      own := fun found after => proceeds.persistent ▸ proceeds.own found after
      fresh := proceeds.fresh
      unused := proceeds.unused }

/-- The handles after a log has been opened. -/
theorem addHandle (sound : Sound capacity lazyOf (s.store.addHandle log))
    (entry : log.logEntry = s.store.persistent.lookup log.logId)
    (pos : log.appendPos = log.logEntry.elim 0 fun entry => entry.head.numBlocks) :
    Faithful capacity lazyOf { s with store := s.store.addHandle log } := by
  refine faithful.kept sound rfl (fun _ => rfl) .inl ⟨rfl, fun _ => .rfl,
    fun found after => ?_, faithful.fresh_addHandle, faithful.unused_addHandle⟩
  rcases addHandle_found found with ⟨rfl, rfl⟩ | found
  · exact ⟨entry, by rw [pos, faithful.unused le_rfl]; rfl⟩
  · exact faithful.own found after

theorem prepareAppend {entry : RawLogEntry} (found : s.store.persistent.lookup logId = some entry)
    (run : s.store.prepareAppend tid logId entry = .ok store) :
    Faithful capacity lazyOf { s with store } := by
  have sound := (faithful.sound.prepareAppend found run).1
  obtain ⟨-, edit, edit', cur, rfl, made⟩ := prepareAppend_ok run
  have head : s.store.headAt logId = entry.head := by
    unfold headAt
    rw [found]
    rfl
  rcases made with rfl | ⟨tail, absent, made, rfl⟩
  · refine faithful.kept sound rfl (fun tid' => ?_) (fun {tid'} h => ?_)
      ⟨rfl, fun _ => .rfl, faithful.own, faithful.fresh, faithful.unused⟩
    · rw [lookup_setEdit]
      split
      · next self => rw [self, getD_some, currentEdit_ok cur]
      · rfl
    · rw [lookup_setEdit] at h
      split at h
      · next self =>
        exact .inr (self ▸ ongoing_of_current cur)
      · exact .inl h
  · refine faithful.edited cur sound rfl nofun ?_ (fun tid' l' _ => faithful.view tid' l')
      ⟨rfl, fun _ => .rfl, faithful.own, faithful.fresh, faithful.unused⟩
    have view := faithful.view tid logId
    rw [head, tailAt_of_current cur, tail?_eq, absent] at view
    obtain ⟨tail', made', cont, empty, zero⟩ := Continues.fromHead view.headFits
    cases made.symm.trans made'
    rw [head]
    exact view.opened cont empty zero

theorem openLog {canAppend : Bool} (run : s.store.openLog tid logId canAppend = .ok store) :
    Faithful capacity lazyOf { s with store } := by
  have sound := faithful.sound.openLog run
  obtain ⟨lazy, entry, mid, -, found, prepare | rfl, rfl⟩ := faithful.sound.openLog_ok run
  · have persistent := (faithful.sound.prepareAppend found prepare).2.2
    refine (faithful.prepareAppend found prepare).addHandle sound ?_ rfl
    rw [persistent, found]
  · exact faithful.addHandle sound found.symm rfl

theorem dropHandle (run : s.store.dropHandle tid h = .ok store) :
    Faithful capacity lazyOf { s with store } := by
  have sound := faithful.sound.dropHandle run
  obtain ⟨log, writeSet, chunks, -, release, rfl⟩ := dropHandle_ok run
  have rest {h' : Nat} {log' : RawLog} (found : (s.store.handles.erase h).lookup h' = some log') :
      s.store.handles.lookup h' = some log' := by
    rw [lookup_erase_ite] at found
    split at found
    · cases found
    · exact found
  refine faithful.kept sound rfl (fun _ => rfl) .inl ⟨rfl, fun tid' => ?_,
    fun found after => faithful.own (rest found) after, fun found => faithful.fresh (rest found),
    faithful.unused⟩
  rcases release with rfl | ⟨lazy, -, -, -, freed⟩
  · exact .rfl
  · exact deallocBatch_ongoing freed tid'

/-- A position is addressed in the same way by any transaction that can see it. -/
theorem locate_head (before : pos < (s.committed l).length) :
    locate (s.store.chunksAt tid l) pos = locate (s.store.chunksAt tid' l) pos := by
  have view := faithful.view tid l
  have inside : pos < (s.store.headAt l).chunks.length * chunkNblocks :=
    before.trans_le (view.headLen ▸ view.headFits.1)
  exact (locate_append_left inside).trans (locate_append_left inside).symm

/-- Another transaction than the current one sees what is committed. -/
theorem pending_other (ongoing : s.store.chunks.ongoing.lookup tid ≠ none) (other : tid' ≠ tid)
    (l : RawLogId) : s.store.tailAt tid' l = none ∧ s.pending tid' l = [] := by
  have absent : s.store.edits.lookup tid' = none := by
    by_contra some
    exact other (faithful.single (faithful.active some) ongoing)
  have noTail := tailAt_none absent l
  exact ⟨noTail, (faithful.view tid' l).quiet noTail⟩

/-- The views of all logs survive writes to positions that the current transaction does not see. -/
theorem frame (ongoing : s.store.chunks.ongoing.lookup tid ≠ none) {disk : BlockId → β}
    (same : ∀ {l pos}, pos < (s.contents tid l).length →
      disk (locate (s.store.chunksAt tid l) pos) = s.store.disk (locate (s.store.chunksAt tid l) pos)) (tid' : Tid)
    (l : RawLogId) : View disk (s.store.headAt l) (s.store.tailAt tid' l) (s.committed l) (s.pending tid' l) := by
  refine (faithful.view tid' l).frame fun pos before => ?_
  by_cases self : tid' = tid
  · subst self
    exact same before
  · -- another transaction sees the committed blocks only
    obtain ⟨-, empty⟩ := faithful.pending_other ongoing self l
    rw [empty, append_nil] at before
    have place : locate (jointChunks (s.store.headAt l) (s.store.tailAt tid' l)) pos =
        locate (s.store.chunksAt tid l) pos := faithful.locate_head before
    rw [place]
    exact same (before.trans_le (by rw [contents, length_append]; omega))

/-- The blocks behind the contents of a log that has grown are at no position in use. -/
theorem locate_not_mem_behind (sound : Sound capacity lazyOf' store)
    (extended : ∀ l, ∃ more, store.chunksAt tid l = s.store.chunksAt tid l ++ more) {count : Nat}
    (room : (s.contents tid logId).length + count ≤ (store.chunksAt tid logId).length * chunkNblocks)
    (before : pos < (s.contents tid l).length) : locate (s.store.chunksAt tid l) pos ∉
      (range' (s.contents tid logId).length count).map (locate (store.chunksAt tid logId)) := by
  intro mem
  obtain ⟨pos', mem, same⟩ := mem_map.mp mem
  obtain ⟨lower, upper⟩ := mem_range'_1.mp mem
  obtain ⟨more, extended⟩ := extended l
  have inside : pos < (s.store.chunksAt tid l).length * chunkNblocks := before.trans_le (faithful.view tid l).fits.1
  have old : locate (store.chunksAt tid l) pos = locate (s.store.chunksAt tid l) pos :=
    extended ▸ locate_append_left inside
  rw [← old] at same
  obtain ⟨rfl, rfl⟩ := sound.locate_unique (upper.trans_le room)
    (by rw [extended, length_append, Nat.add_mul]; omega) same
  exact absurd before (not_lt.mpr lower)

theorem append {buf : { bs : List β // bs ≠ [] }} (own : s.first ≤ h)
    (small : buf.1.length < 2 ^ 32) (run : s.store.append tid h buf.1 = .ok (pos, store)) :
    Faithful capacity lazyOf (s.record store (.append tid h buf)) := by
  have sound := faithful.sound.append run
  obtain ⟨log, edit, e, tail, needed, newChunks, chunks, blocks, numBlocks, found, -, cur, at_l, has,
    calc_eq, alloc, prepared, sum, eq⟩ := append_ok run
  have hasTail : s.store.tailAt tid log.logId = some tail := by
    rw [tailAt_of_current cur, tail?_eq, at_l]
    exact has
  have newTail := RawLogEdit.tail?_withTail has { tail with chunks := tail.chunks ++ newChunks, numBlocks }
  -- the chunks of the logs after the append
  have head l : store.headAt l = s.store.headAt l := by rw [eq]; rfl
  have tails l : store.tailAt tid l = if tid = tid ∧ l = log.logId then
      (e.withTail { tail with chunks := tail.chunks ++ newChunks, numBlocks }).tail?
      else s.store.tailAt tid l := by
    rw [← tailAt_setEdit cur, eq]
    rfl
  have grown : store.chunksAt tid log.logId = (s.store.headAt log.logId).chunks ++ (tail.chunks ++ newChunks) := by
    unfold chunksAt
    rw [head, tails, if_pos ⟨rfl, rfl⟩, newTail]
    rfl
  have view := faithful.view tid log.logId
  rw [hasTail] at view
  have count : newChunks.length = needed := by
    unfold allocNeeded at alloc
    split at alloc
    · exact (faithful.sound.owned.inv.allocBatch alloc).2.2.1
    · next enough =>
      cases alloc
      exact (Nat.eq_zero_of_not_pos enough).symm
  have nodup := sound.chunksAt_nodup tid log.logId
  rw [grown] at nodup
  have room := view.room calc_eq count
  obtain ⟨blocks_eq, here⟩ := view.appended calc_eq count nodup small prepared sum
  have extended l : ∃ more, store.chunksAt tid l = s.store.chunksAt tid l ++ more := by
    by_cases same : l = log.logId
    · refine ⟨newChunks, ?_⟩
      rw [same, grown, chunksAt, hasTail]
      exact (append_assoc _ _ _).symm
    · refine ⟨[], ?_⟩
      unfold chunksAt
      rw [head, tails, if_neg fun both => same both.2, append_nil]
  -- no position in use is written to
  have outside {l : RawLogId} {pos : Nat} (before : pos < (s.contents tid l).length) :
      locate (s.store.chunksAt tid l) pos ∉ blocks := by
    rw [blocks_eq, ← grown]
    exact faithful.locate_not_mem_behind sound extended (grown ▸ room.1) before
  have length : blocks.length = buf.1.length := by
    rw [blocks_eq, length_map, length_range']
  have logged : (s.store.handles.lookup h).map (·.logId) = some log.logId := by
    rw [found]
    rfl
  subst eq
  refine faithful.edited cur sound rfl (fun eq => ?_) ?_
    (fun tid' l' other => ?_) ⟨rfl, allocNeeded_ongoing alloc, fun {h' log'} found' after => ?_,
    fun {h'} {log'} found' => ?_, fun {h'} beyond => ?_⟩
  · rw [eq] at newTail
    cases newTail
  · rw [newTail]
    rw [if_pos ⟨rfl, logged⟩]
    exact here
  · have pending : (if tid' = tid ∧ (s.store.handles.lookup h).map (·.logId) = some l' then
        s.pending tid' l' ++ buf.1 else s.pending tid' l') = s.pending tid' l' := by
      refine if_neg fun both => other ⟨both.1, ?_⟩
      exact (some.inj (logged.symm.trans both.2)).symm
    rw [pending]
    exact faithful.frame (ongoing_of_current cur)
      (fun before => writeBlocks_frame length (outside before) s.store.disk) tid' l'
  · rw [lookup_insert_ite] at found'
    by_cases same : h' = h
    · rw [if_pos same] at found'
      cases found'
      obtain ⟨entry, at_pos⟩ := faithful.own found own
      refine ⟨entry, ?_⟩
      show log.appendPos + buf.1.length = _
      rw [if_pos same, same, at_pos, Nat.add_assoc]
    · rw [if_neg same] at found'
      obtain ⟨entry, at_pos⟩ := faithful.own found' after
      exact ⟨entry, by rw [if_neg same, at_pos]⟩
  · rw [lookup_insert_ite] at found'
    split at found'
    · next same =>
      subst same
      exact faithful.fresh found
    · exact faithful.fresh found'
  · have other : h' ≠ h := fun same => (faithful.fresh found).not_ge (same ▸ beyond)
    rw [if_neg other, faithful.unused beyond]

/-- The end of a transaction: what it has appended is in the heads, or is gone. -/
theorem ended (ongoing : s.store.chunks.ongoing.lookup tid ≠ none) (sound : Sound capacity lazyOf' store)
    (edits : store.edits = s.store.edits.erase tid)
    (going : ∀ tid', tid' ≠ tid → store.chunks.ongoing.lookup tid' = s.store.chunks.ongoing.lookup tid')
    (beyond : store.chunks.ongoing.lookup tid = none) (handles : store.handles = s.store.handles)
    (nextHandle : store.nextHandle = s.store.nextHandle) {committed : RawLogId → List β}
    (view : ∀ l, View store.disk (store.headAt l) none (committed l) []) : Faithful capacity lazyOf'
      { s with
        store
        committed
        pending := fun tid' l => if tid' = tid then [] else s.pending tid' l
        first := store.nextHandle } := by
  have noEdit tid' : store.edits.lookup tid' = none := by
    rw [edits, lookup_erase_ite]
    split
    · rfl
    · next other =>
      by_contra some
      exact other (faithful.single (faithful.active some) ongoing)
  have nobody tid' : store.chunks.ongoing.lookup tid' = none := by
    by_cases self : tid' = tid
    · exact self ▸ beyond
    · rw [going tid' self]
      by_contra some
      exact self (faithful.single some ongoing)
  have fresh {h : Nat} {log : RawLog} (found : store.handles.lookup h = some log) : h < store.nextHandle := by
    rw [handles] at found
    exact nextHandle ▸ faithful.fresh found
  have noEditAt {tid' : Tid} {l : RawLogId} {e : RawLogEdit} : ¬ store.EditAt tid' l e :=
    fun ⟨_, found, _⟩ => nomatch (noEdit tid').symm.trans found
  exact
    { sound
      view := fun tid' l => by
        have pending : (if tid' = tid then [] else s.pending tid' l) = [] := by
          split
          · rfl
          · next other => exact (faithful.pending_other ongoing other l).2
        show View store.disk (store.headAt l) (store.tailAt tid' l) (committed l)
          (if tid' = tid then [] else s.pending tid' l)
        rw [pending, tailAt_none (noEdit tid')]
        exact view l
      noDelete := noEditAt
      single := fun h => absurd (nobody _) h
      active := fun h => absurd (noEdit _) h
      own := fun found after => absurd (fresh found) (not_lt.mpr after)
      fresh
      unused := fun beyond => faithful.unused (nextHandle ▸ beyond) }

theorem abort (run : s.store.abort tid = .ok store) : Faithful capacity lazyOf (s.record store (.abort tid)) := by
  have sound := faithful.sound.abort run
  obtain ⟨chunks, done, eq⟩ := bind_ok.mp run
  cases eq
  obtain ⟨edit, cur, -⟩ := bind_ok.mp done
  have ongoing : s.store.chunks.ongoing.lookup tid ≠ none := by
    rw [current_ok.mp cur]
    exact nofun
  have going tid' : chunks.ongoing.lookup tid' =
      if tid' = tid then none else s.store.chunks.ongoing.lookup tid' := by
    rw [(abort_ok done).1, lookup_erase_ite]
  refine faithful.ended ongoing sound rfl (fun tid' other => (going tid').trans (if_neg other))
    ((going tid).trans (if_pos rfl)) rfl rfl fun l => ?_
  exact (faithful.view tid l).aborted

/-- The head of a log after the commit is what the transaction saw. -/
theorem commit (run : s.store.commit tid = .ok store) :
    ∃ lazyOf', Faithful capacity lazyOf' (s.record store (.commit tid)) := by
  obtain ⟨lazyOf', sound, -⟩ := faithful.sound.commit run
  obtain ⟨edit, persistent, mid, _, _, chunks, cur, applied, handled, done, rfl⟩ := faithful.sound.commit_ok run
  have released := handled.released
  obtain ⟨alloc, current, -⟩ := bind_ok.mp cur
  have ongoing := ongoing_of_current cur
  have found := current_ok.mp current
  obtain ⟨alloc', found', -⟩ := released.entry found
  have going tid' : chunks.ongoing.lookup tid' =
      if tid' = tid then none else mid.ongoing.lookup tid' := by
    rw [(commit_ok found' done).1, lookup_erase_ite]
  refine ⟨lazyOf', faithful.ended ongoing sound rfl
    (fun tid' other => ((going tid').trans (if_neg other)).trans (released.others tid' other))
    ((going tid).trans (if_pos rfl)) rfl rfl fun l => ?_⟩
  have view := faithful.view tid l
  rw [tailAt_of_current cur, tail?_eq] at view
  unfold headAt at view ⊢
  rw [apply_lookup applied]
  cases e : edit.lookup l with
  | none =>
    rw [e] at view
    rw [view.quiet rfl, append_nil]
    exact view.aborted
  | some e' =>
    rw [e] at view
    cases e' with
    | create tail =>
      have absent : s.store.persistent.lookup l = none := by
        refine faithful.sound.live.mpr ?_
        have none := (faithful.sound.creating (editAt_of_current cur e)).2
        cases table : s.store.lazyDeletes.lookup l with
        | none => rfl
        | some lazy => cases none.symm.trans (faithful.sound.lazyTable table)
      rw [absent] at view
      have joined := view.committed_tail
      show View _ ⟨tail.chunks, tail.numBlocks⟩ _ _ _
      rw [← zero_add tail.numBlocks]
      exact joined
    | append tail =>
      obtain ⟨entry, head, -⟩ := apply_append applied e
      rw [head] at view ⊢
      exact view.committed_tail
    | delete => exact absurd (editAt_of_current cur e) faithful.noDelete

/-- Every step keeps the views right. -/
theorem step {t : LoggedStore β} {op : RawLogOp β} (step : s.Step op t) :
    ∃ lazyOf', Faithful capacity lazyOf' t := by
  obtain ⟨sequential, small, run⟩ := step
  obtain ⟨store, act, eq⟩ := bind_ok.mp run
  cases eq
  cases op with
  | newTx tid =>
    cases act
    exact ⟨lazyOf, faithful.newTx sequential⟩
  | create tid => exact ⟨lazyOf, faithful.createLog act⟩
  | openLog tid logId canAppend => exact ⟨lazyOf, faithful.openLog act⟩
  | append tid h buf =>
    obtain ⟨pos, act⟩ := snd_ok.mp act
    exact ⟨lazyOf, faithful.append sequential small act⟩
  | delete tid logId => exact sequential.elim
  | drop tid h => exact ⟨lazyOf, faithful.dropHandle act⟩
  | commit tid => exact faithful.commit act
  | abort tid => exact ⟨lazyOf, faithful.abort act⟩

/-- The block of a position in use. -/
theorem blockOf_run (before : pos < (s.contents tid l).length) :
    s.store.blockOf tid l pos = .ok [locate (s.store.chunksAt tid l) pos] := by
  have view := faithful.view tid l
  unfold blockOf
  split
  · next inHead =>
    have inside : pos + 1 ≤ (s.store.headAt l).chunks.length * chunkNblocks := le_trans inHead view.headFits.1
    rw [RawLogHead.prepareBlocks_run inside]
    exact congrArg (fun b => Except.ok [b]) (locate_append_left inside).symm
  · next past =>
    have total : pos < (s.committed l).length + (s.pending tid l).length := by
      rw [← length_append]
      exact before
    rw [view.headLen] at past
    split
    · next tail has =>
      rw [has] at view
      have room := before.trans_le view.fits.1
      have offset : (s.store.headAt l).numBlocks + (pos - (s.store.headAt l).numBlocks) = pos :=
        Nat.add_sub_cancel' (by rw [view.headLen]; omega)
      have inside : (s.store.headAt l).numBlocks + (pos - (s.store.headAt l).numBlocks) + 1 ≤
          ((s.store.headAt l).chunks ++ tail.chunks).length * chunkNblocks := by
        rw [offset]
        exact room
      rw [prepareBlocks_run (view.continued tail rfl).1 inside, offset, chunksAt, has]
      rfl
    · next none =>
      rw [view.quiet none, length_nil] at total
      omega

/-- What a transaction reads with a handle of its own. -/
theorem read (ongoing : s.store.chunks.ongoing.lookup tid ≠ none)
    (found : s.store.handles.lookup h = some log) (own : s.first ≤ h) (pos n : Nat) : s.store.read tid h pos n =
      if pos + n ≤ (s.contents tid log.logId).length then .ok (((s.contents tid log.logId).drop pos).take n)
      else fail .invalidArgs "do not allow short read" := by
  obtain ⟨alloc, current⟩ := ne_none_iff_exists'.mp ongoing
  have cur : s.store.currentEdit tid = .ok ((s.store.edits.lookup tid).getD ∅) := by
    unfold currentEdit
    rw [current_ok.mpr current]
    rfl
  have view := faithful.view tid log.logId
  unfold headAt at view
  rw [← (faithful.own found own).entry] at view
  exact read_run found cur view pos n

end

theorem of_run {disk : BlockId → β} {ops : List (RawLogOp β)}
    (run : Labelled.Run Step (LoggedStore.start capacity disk) ops s) : ∃ lazyOf, Faithful capacity lazyOf s := by
  have keep : ∀ (s : LoggedStore β) op t, (∃ lazyOf, Faithful capacity lazyOf s) → s.Step op t →
      ∃ lazyOf, Faithful capacity lazyOf t := by
    rintro s op t ⟨lazyOf, faithful⟩ step
    exact faithful.step step
  exact run.invariant keep ⟨_, .start capacity disk⟩

end Faithful

/-- If no append is of `2 ^ 32` blocks or more, a transaction that reads a log with a handle of its own
gets the blocks appended at these positions by the committed transactions and itself, and different
positions of logs are at different disk blocks. -/
theorem read_contents {capacity : Nat} {disk : BlockId → β} {ops : List (RawLogOp β)}
    {s : LoggedStore β} (run : Labelled.Run Step (start capacity disk) ops s) :
    (∀ tid h log, s.store.chunks.ongoing.lookup tid ≠ none → s.store.handles.lookup h = some log →
      s.first ≤ h → ∀ pos n, s.store.read tid h pos n =
        if pos + n ≤ (s.contents tid log.logId).length then
          .ok (((s.contents tid log.logId).drop pos).take n)
        else fail .invalidArgs "do not allow short read") ∧
    ∀ tid, ∃ place : RawLogId → Nat → BlockId,
      (∀ l pos, pos < (s.contents tid l).length → s.store.blockOf tid l pos = .ok [place l pos]) ∧
      ∀ l l' pos pos', pos < (s.contents tid l).length → pos' < (s.contents tid l').length →
        place l pos = place l' pos' → l = l' ∧ pos = pos' := by
  obtain ⟨lazyOf, faithful⟩ := Faithful.of_run run
  refine ⟨fun tid h log => faithful.read, fun tid => ?_⟩
  refine ⟨fun l pos => locate (s.store.chunksAt tid l) pos, fun l pos => faithful.blockOf_run,
    fun l l' pos pos' before before' same => ?_⟩
  exact faithful.sound.locate_unique (before.trans_le (faithful.view tid l).fits.1)
    (before'.trans_le (faithful.view tid l').fits.1) same

/-- Two transactions that append to a log; the second one is still going on. -/
def twoAppends : List (RawLogOp Nat) :=
  [.newTx 0, .create 0, .append 0 0 ⟨[7, 8], List.cons_ne_nil _ _⟩, .commit 0, .drop 0 0,
    .newTx 1, .openLog 1 0 true, .append 1 1 ⟨[9], List.cons_ne_nil _ _⟩]

/-- Execution that stops where a step is not sequential or an append is too large. -/
def execGuarded (s : LoggedStore Nat) (op : RawLogOp Nat) : Res (LoggedStore Nat) :=
  if s.Sequential op ∧ Small op then s.exec op else panicWith "not a step"

theorem run_of_execGuarded {s t : LoggedStore Nat} {ops : List (RawLogOp Nat)}
    (returns : ops.foldlM execGuarded s = .ok t) :
    Labelled.Run Step s ops t := by
  refine .of_foldlM (fun op _ s t h => ?_) returns
  obtain ⟨guard, h⟩ := ite_ok.mp h
  exact ⟨guard.1, guard.2, h⟩

theorem read_contents_twoAppends : ∃ s, Labelled.Run Step (start 4 fun _ => 0) twoAppends s ∧
      s.contents 1 0 = [7, 8, 9] ∧ s.store.read 1 1 1 2 = .ok [8, 9] := by
  obtain ⟨s, returns, seen⟩ := exists_ok_of_map (x := twoAppends.foldlM execGuarded (start 4 fun _ => 0))
    (f := fun s => (s.contents 1 0, decide (s.store.chunks.ongoing.lookup 1 ≠ none),
      s.store.handles.lookup 1, decide (s.first ≤ 1)))
    (b := ([7, 8, 9], true, some ⟨0, some ⟨[0], 2⟩, some ⟨[0], 2⟩, 3, true⟩, true)) (by decide +kernel)
  obtain ⟨contents, seen⟩ := Prod.mk.inj seen
  obtain ⟨ongoing, seen⟩ := Prod.mk.inj seen
  obtain ⟨found, own⟩ := Prod.mk.inj seen
  have run := run_of_execGuarded returns
  refine ⟨s, run, contents, ?_⟩
  rw [(read_contents run).1 1 1 _ (of_decide_eq_true ongoing) found (of_decide_eq_true own) 1 2, contents]
  rfl

/-- After an append the transaction reads the new blocks at the old end of the log, with each of its
handles. The append returns that position exactly if the handle is the one with which all blocks of the
transaction were appended to the log. -/
theorem append_position_iff {capacity : Nat} {disk : BlockId → β} {ops : List (RawLogOp β)}
    {s t : LoggedStore β} (run : Labelled.Run Step (start capacity disk) ops s) {tid : Tid} {h : Nat}
    {buf : { bs : List β // bs ≠ [] }} (step : s.Step (.append tid h buf) t) :
    ∃ log pos, s.store.handles.lookup h = some log ∧
      s.store.append tid h buf.1 = .ok (pos, t.store) ∧
      (pos = (s.contents tid log.logId).length ↔
        s.through h = (s.pending tid log.logId).length) ∧
      ∀ h' log', t.store.handles.lookup h' = some log' → t.first ≤ h' → log'.logId = log.logId →
        t.store.read tid h' (s.contents tid log.logId).length buf.1.length = .ok buf.1 := by
  obtain ⟨lazyOf, faithful⟩ := Faithful.of_run run
  obtain ⟨lazyOf', faithful'⟩ := faithful.step step
  obtain ⟨own, -, run⟩ := step
  obtain ⟨store, act, eq⟩ := bind_ok.mp run
  obtain ⟨pos, act⟩ := snd_ok.mp act
  obtain ⟨log, edit, e, tail, needed, newChunks, chunks, blocks, numBlocks, found, rfl, cur, -, -, -,
    alloc, -, -, store_eq⟩ := append_ok act
  cases eq
  have ongoing : store.chunks.ongoing.lookup tid ≠ none := by
    rw [store_eq]
    exact (allocNeeded_ongoing alloc tid).mpr (ongoing_of_current cur)
  have contents : (s.record store (.append tid h buf)).contents tid log.logId =
      s.contents tid log.logId ++ buf.1 := by
    refine (congrArg (s.committed log.logId ++ ·) (if_pos ⟨rfl, ?_⟩)).trans (append_assoc _ _ _).symm
    rw [found]
    rfl
  refine ⟨log, _, found, act, ?_, fun h' log' found' own' same => ?_⟩
  · obtain ⟨entry, pos⟩ := faithful.own found own
    have headLen := (faithful.view tid log.logId).headLen
    have head : (s.store.headAt log.logId).numBlocks = log.logEntry.elim 0 (·.head.numBlocks) := by
      unfold headAt
      rw [← entry]
      cases log.logEntry <;> rfl
    rw [pos, LoggedStore.contents, length_append, ← headLen, head, Nat.add_left_cancel_iff]
  · rw [faithful'.read ongoing found' own', same, contents, if_pos (by rw [length_append]), drop_left,
      take_length]

/-- The second transaction appends a third block with the same handle. -/
theorem append_position_iff_twoAppends : ∃ s t,
    Labelled.Run Step (start 4 fun _ => 0) twoAppends s ∧ s.through 1 = (s.pending 1 0).length ∧
      s.store.append 1 1 [6] = .ok (3, t) ∧ t.read 1 1 3 1 = .ok [6] := by
  obtain ⟨⟨s, t⟩, returns, seen⟩ := exists_ok_of_map (x := do
      let s ← twoAppends.foldlM execGuarded (start 4 fun _ => 0)
      let t ← execGuarded s (.append 1 1 ⟨[6], cons_ne_nil _ _⟩)
      pure (s, t))
    (f := fun x => (x.1.store.handles.lookup 1, x.2.store.handles.lookup 1, x.1.contents 1 0,
      decide (x.1.through 1 = (x.1.pending 1 0).length ∧ x.2.first ≤ 1)))
    (b := (some ⟨0, some ⟨[0], 2⟩, some ⟨[0], 2⟩, 3, true⟩,
      some ⟨0, some ⟨[0], 2⟩, some ⟨[0], 2⟩, 4, true⟩, [7, 8, 9], true)) (by decide +kernel)
  simp only [Prod.mk.injEq, decide_eq_true_eq] at seen
  obtain ⟨found, found', contents, all, own⟩ := seen
  obtain ⟨_, first, rest⟩ := bind_ok.mp returns
  obtain ⟨_, last, eq⟩ := bind_ok.mp rest
  cases eq
  have run := run_of_execGuarded first
  obtain ⟨guard, last⟩ := ite_ok.mp last
  obtain ⟨log, pos, at_, act, position, reads⟩ := append_position_iff run ⟨guard.1, guard.2, last⟩
  cases at_.symm.trans found
  rw [contents] at position reads
  cases position.mpr all
  exact ⟨s, t.store, run, all, act, reads 1 _ found' own rfl⟩

/-- The second transaction opens the log again. -/
def reopened : List (RawLogOp Nat) := twoAppends ++ [.drop 1 1, .openLog 1 0 true]

/-- Its next append returns 2, where the block appended before is. -/
theorem reopened_position : ∃ s t, Labelled.Run Step (start 4 fun _ => 0) reopened s ∧
    s.store.append 1 2 [6] = .ok (2, t) ∧ t.read 1 2 2 1 = .ok [9] ∧ t.read 1 2 3 1 = .ok [6] := by
  obtain ⟨⟨s, pos, t⟩, returns, seen⟩ := exists_ok_of_map (x := do
      let s ← reopened.foldlM execGuarded (start 4 fun _ => 0)
      let (pos, t) ← s.store.append 1 2 [6]
      pure (s, pos, t))
    (f := fun x => (x.2.1, x.2.2.read 1 2 2 1, x.2.2.read 1 2 3 1))
    (b := (2, .ok [9], .ok [6])) (by decide +kernel)
  simp only [Prod.mk.injEq] at seen
  obtain ⟨rfl, before, behind⟩ := seen
  obtain ⟨_, first, rest⟩ := bind_ok.mp returns
  obtain ⟨⟨_, _⟩, last, eq⟩ := bind_ok.mp rest
  cases eq
  exact ⟨s, t, run_of_execGuarded first, last, before, behind⟩

end LoggedStore

end OmegaOsx.MlsDisk
