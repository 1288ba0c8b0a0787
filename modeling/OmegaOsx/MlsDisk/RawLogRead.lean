import OmegaOsx.MlsDisk.RawLogCommit
import OmegaOsx.MlsDisk.RawLogView

/-!
# Reading a raw log

A log as a transaction sees it is its head and the transaction's tail.
-/

namespace OmegaOsx.MlsDisk

open List RawLogStoreEdit ChunkSystem Except

variable {β : Type} {tid : Tid} {i : ChunkId} {c : ChunkSystem} {l : RawLogId} {edit : RawLogStoreEdit}
  {s : RawLogStore β}

namespace RawLogStore

/-- The committed part of a log. -/
def headAt (s : RawLogStore β) (l : RawLogId) : RawLogHead :=
  ((s.persistent.lookup l).map (·.head)).getD .new

/-- The part of a log that a transaction has appended. -/
def tailAt (s : RawLogStore β) (tid : Tid) (l : RawLogId) : Option RawLogTail :=
  RawLogStoreEdit.tail? ((s.edits.lookup tid).getD ∅) l

/-- The disk block of a position of a log, as head and tail compute it. -/
def blockOf (s : RawLogStore β) (tid : Tid) (l : RawLogId) (pos : Nat) : Res (List BlockId) :=
  if pos < (s.headAt l).numBlocks then (s.headAt l).prepareBlocks pos 1
  else match s.tailAt tid l with
    | some tail => tail.prepareBlocks (pos - (s.headAt l).numBlocks) 1
    | none => fail .invalidArgs "do not allow short read"

variable {h : Nat} {log : RawLog} {c' : ChunkSystem} {ids : List ChunkId}

theorem handle_run (found : s.handles.lookup h = some log) : s.handle h = .ok log := by
  unfold handle
  rw [found]
  rfl

section Read

variable {disk : BlockId → β} {head? : Option RawLogHead} {tail? : Option RawLogTail}
  {committed pending : List β}

/-- The part of a read in the head, which may be empty. -/
theorem readHead_run (view : View disk (head?.getD .new) tail? committed pending) {pos count : Nat}
    (inside : pos + count ≤ committed.length ∨ committed.length ≤ pos ∧ count = 0) :
    readHead disk head? pos count =
      .ok ((List.range' pos count).map fun q => disk (locate (jointChunks (head?.getD .new) tail?) q)) := by
  have len := view.headLen
  unfold readHead
  cases head? with
  | none =>
    have zero : count = 0 := by
      rcases inside with inside | ⟨-, zero⟩
      · rw [← len] at inside
        exact Nat.eq_zero_of_add_eq_zero_left (Nat.le_zero.mp inside)
      · exact zero
    rw [zero]
    rfl
  | some head =>
    replace len : head.numBlocks = committed.length := len
    dsimp only
    split
    · next before =>
      have within : pos + count ≤ head.chunks.length * chunkNblocks := by
        have := view.headFits.1
        replace this : head.numBlocks ≤ head.chunks.length * chunkNblocks := this
        omega
      rw [RawLogHead.prepareBlocks_run within]
      show ok (readBlocks disk _) = _
      rw [readBlocks_eq, map_map]
      refine congrArg ok (map_congr_left fun q mem => congrArg disk ?_)
      exact (locate_append_left (by have := (mem_range'_1.mp mem).2; omega)).symm
    · have zero : count = 0 := by omega
      rw [zero]
      rfl

/-- The part of a read in the tail, if it is not empty. -/
theorem readTail_run {head : RawLogHead} (view : View disk head tail? committed pending)
    {offset count : Nat} (positive : 0 < count) (inside : offset + count ≤ pending.length) :
    readTail disk tail? offset count = .ok ((List.range' (committed.length + offset) count).map fun q =>
      disk (locate (jointChunks head tail?) q)) := by
  cases tail? with
  | none =>
    rw [view.quiet rfl] at inside
    exact absurd inside (by rw [length_nil]; omega)
  | some tail =>
    obtain ⟨cont, len⟩ := view.continued tail rfl
    have room := view.fits.1
    rw [length_append, ← view.headLen] at room
    have within : head.numBlocks + offset + count ≤ (head.chunks ++ tail.chunks).length * chunkNblocks :=
      le_trans (by omega) room
    unfold readTail
    dsimp only
    rw [RawLogTail.prepareBlocks_run cont within, view.headLen]
    show ok (readBlocks disk _) = _
    rw [readBlocks_eq, map_map]
    rfl

end Read

/-- Reading a log whose view is right. -/
theorem read_run {committed pending : List β} (found : s.handles.lookup h = some log)
    (cur : s.currentEdit tid = .ok edit)
    (view : View s.disk ((log.logEntry.map (·.head)).getD .new)
    (edit.tail? log.logId) committed pending) (pos n : Nat) :
    s.read tid h pos n =
      if pos + n ≤ (committed ++ pending).length then .ok (((committed ++ pending).drop pos).take n)
      else fail .invalidArgs "do not allow short read" := by
  unfold RawLogStore.read
  rw [handle_run found, ok_bind, cur, ok_bind]
  dsimp only
  have headLen : ((log.logEntry.map (·.head)).map (·.numBlocks)).getD 0 = committed.length := by
    rw [← view.headLen]
    cases log.logEntry <;> rfl
  have tailLen : ((edit.tail? log.logId).map (·.numBlocks)).getD 0 = pending.length := by
    cases e : edit.tail? log.logId with
    | none => rw [view.quiet e]; rfl
    | some tail => exact (view.continued tail e).2
  rw [headLen, tailLen, ← length_append]
  by_cases inside : pos + n ≤ (committed ++ pending).length
  · have total := inside
    rw [length_append] at total
    rw [if_neg (not_lt.mpr inside), ← view.slice inside]
    generalize numRead_eq : (if pos < committed.length then min n (committed.length - pos) else 0) = numRead
    have bounds : numRead ≤ n ∧
      (pos + numRead ≤ committed.length ∨ committed.length ≤ pos ∧ numRead = 0) ∧
        (0 < n - numRead → committed.length ≤ pos + numRead) := by
      split at numRead_eq <;> omega
    rw [readHead_run view bounds.2.1]
    split
    · next all =>
      have : numRead = n := by omega
      rw [this]
      rfl
    · next some =>
      have past := bounds.2.2 (by omega)
      rw [readTail_run view (by omega) (by omega)]
      refine congrArg ok ?_
      rw [← map_append, Nat.add_sub_cancel' past, range'_append_1, Nat.add_sub_cancel' bounds.1]
  · rw [if_pos (Nat.lt_of_not_le inside), if_neg inside]

section

variable (cur : s.currentEdit tid = .ok edit)
include cur

/-- The tails after a transaction has set the entry of one log. -/
theorem tailAt_setEdit {new : RawLogEdit} (tid' : Tid) (l' : RawLogId) :
    (s.setEdit tid (edit.insert l new)).tailAt tid' l' =
      if tid' = tid ∧ l' = l then new.tail? else s.tailAt tid' l' := by
  unfold tailAt
  rw [lookup_setEdit]
  by_cases self : tid' = tid
  · subst self
    rw [if_pos rfl, Option.getD_some, ← currentEdit_ok cur, tail?_eq, tail?_eq, Table.lookup_insert_ite]
    by_cases same : l' = l
    · rw [if_pos same, if_pos ⟨rfl, same⟩]
      rfl
    · rw [if_neg same, if_neg fun both => same both.2]
  · rw [if_neg self, if_neg fun both => self both.1]

theorem tailAt_of_current (l : RawLogId) : s.tailAt tid l = edit.tail? l := by
  unfold tailAt
  rw [← currentEdit_ok cur]

theorem ongoing_of_current : s.chunks.ongoing.lookup tid ≠ none := by
  obtain ⟨_, ongoing, -⟩ := bind_ok.mp cur
  rw [current_ok.mp ongoing]
  exact nofun

end

theorem tailAt_none (absent : s.edits.lookup tid = none) (l : RawLogId) : s.tailAt tid l = none := by
  unfold tailAt
  rw [absent]
  rfl

theorem editAt_iff {e : RawLogEdit} : s.EditAt tid l e ↔ ((s.edits.lookup tid).getD ∅).lookup l = some e := by
  unfold EditAt
  cases s.edits.lookup tid with
  | none => exact iff_of_false (fun ⟨_, found, _⟩ => nomatch found) nofun
  | some edit =>
    refine ⟨?_, fun at_l => ⟨edit, rfl, at_l⟩⟩
    rintro ⟨_, ⟨⟩, at_l⟩
    exact at_l

/-- Working on the chunks of a transaction neither begins nor ends one. -/
theorem lookup_update_iff {edit edit' : ChunkAllocEdit} {state : ChunkAllocState} (cur : c.current tid = .ok edit)
    (tid' : Tid) : (c.update tid state edit').ongoing.lookup tid' ≠ none ↔ c.ongoing.lookup tid' ≠ none := by
  rw [lookup_update]
  split
  · next self =>
    rw [self, current_ok.mp cur]
    exact iff_of_true nofun nofun
  · exact .rfl

theorem allocNeeded_ongoing {needed : Nat} (run : allocNeeded c tid needed = .ok (ids, c')) (tid' : Tid) :
    c'.ongoing.lookup tid' ≠ none ↔ c.ongoing.lookup tid' ≠ none := by
  unfold allocNeeded at run
  split at run
  · obtain ⟨edit, cur, run⟩ := bind_ok.mp run
    obtain ⟨⟨_, _, _⟩, -, eq⟩ := bind_ok.mp run
    cases eq
    exact lookup_update_iff cur tid'
  · cases run
    exact .rfl

theorem deallocBatch_ongoing (run : c.deallocBatch tid ids = .ok c')
    (tid' : Tid) : c'.ongoing.lookup tid' ≠ none ↔ c.ongoing.lookup tid' ≠ none := by
  obtain ⟨edit, cur, run⟩ := bind_ok.mp run
  obtain ⟨⟨_, _⟩, -, eq⟩ := bind_ok.mp run
  cases eq
  exact lookup_update_iff cur tid'

/-- The chunks of a log as a transaction sees it. -/
def chunksAt (s : RawLogStore β) (tid : Tid) (l : RawLogId) : List ChunkId :=
  jointChunks (s.headAt l) (s.tailAt tid l)

section Chunks

variable {capacity : Nat} {lazyOf : RawLogId → Option RawLogEntry}

theorem owns_of_head (mem : i ∈ (s.headAt l).chunks) : s.Owns l i := by
  unfold headAt at mem
  cases found : s.persistent.lookup l with
  | none =>
    rw [found] at mem
    cases mem
  | some entry =>
    rw [found] at mem
    exact .inl ⟨entry, found, mem⟩

theorem inTail_of_tailAt (mem : i ∈ (s.tailAt tid l).elim [] (·.chunks)) : s.InTail tid l i := by
  cases has : s.tailAt tid l with
  | none =>
    rw [has] at mem
    cases mem
  | some tail =>
    rw [has] at mem
    unfold tailAt at has
    rw [tail?_eq] at has
    obtain ⟨e, at_l, has⟩ := Option.bind_eq_some_iff.mp has
    exact ⟨e, tail, editAt_iff.mpr at_l, has, mem⟩

theorem owner_of_chunksAt (mem : i ∈ s.chunksAt tid l) : s.Owns l i ∨ s.InTail tid l i :=
  (mem_append.mp mem).imp owns_of_head inTail_of_tailAt

variable (sound : Sound capacity lazyOf s)
include sound

variable {l' : RawLogId}

theorem Sound.chunksAt_unique {tid' : Tid} (mem : i ∈ s.chunksAt tid l) (mem' : i ∈ s.chunksAt tid' l') :
    l = l' := by
  rcases owner_of_chunksAt mem with own | tail <;> rcases owner_of_chunksAt mem' with own' | tail'
  · exact sound.owned.ownsUnique own own'
  · exact absurd own (sound.owned.tail_not_owned tail')
  · exact absurd own' (sound.owned.tail_not_owned tail)
  · cases sound.owned.tail_tid tail tail'
    exact sound.owned.tailUnique tail tail'

theorem Sound.chunksAt_nodup (tid : Tid) (l : RawLogId) : (s.chunksAt tid l).Nodup := by
  have head : (s.headAt l).chunks.Nodup := by
    unfold headAt
    cases found : s.persistent.lookup l with
    | none => exact nodup_nil
    | some entry => exact sound.headNodup found
  have tail : ((s.tailAt tid l).elim [] (·.chunks)).Nodup := by
    cases has : s.tailAt tid l with
    | none => exact nodup_nil
    | some tail =>
      unfold tailAt at has
      rw [tail?_eq] at has
      obtain ⟨e, at_l, has⟩ := Option.bind_eq_some_iff.mp has
      exact sound.tailNodup (editAt_iff.mpr at_l) has
  refine head.append tail fun i mem mem' => ?_
  exact sound.owned.tail_not_owned (inTail_of_tailAt mem') (owns_of_head mem)

/-- Different positions of logs are at different blocks. -/
theorem Sound.locate_unique {pos pos' : Nat} (inside : pos < (s.chunksAt tid l).length * chunkNblocks)
    (inside' : pos' < (s.chunksAt tid l').length * chunkNblocks)
    (same : locate (s.chunksAt tid l) pos = locate (s.chunksAt tid l') pos') : l = l' ∧ pos = pos' := by
  obtain ⟨chunk, -⟩ := locate_inj inside inside' same
  have index := Nat.div_lt_of_lt_mul (Nat.mul_comm _ _ ▸ inside)
  rw [getElem?_eq_getElem index] at chunk
  obtain rfl : l = l' := sound.chunksAt_unique (getElem_mem index) (mem_of_getElem? chunk.symm)
  exact ⟨rfl, locate_inj_nodup (sound.chunksAt_nodup tid l) inside inside' same⟩

end Chunks

end RawLogStore

end OmegaOsx.MlsDisk
