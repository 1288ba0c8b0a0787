import OmegaOsx.MlsDisk.RawLog

/-!
# Where the blocks of a raw log are

`locate` is the disk block of a position in a list of chunks. The tail of a log continues its head in
the free blocks of the head's last chunk, so both are addressed in the concatenation of the two lists.
-/

namespace OmegaOsx.MlsDisk

open List Nat Except

/-- The block of a position in the chunks. -/
def locate (chunks : List ChunkId) (pos : Nat) : BlockId :=
  chunks[pos / chunkNblocks]?.getD 0 * chunkNblocks + pos % chunkNblocks

variable {chunks : List ChunkId} {offset : Nat}

theorem locate_mul_add {index : Nat} (small : offset < chunkNblocks) : locate chunks (index * chunkNblocks + offset) =
      chunks[index]?.getD 0 * chunkNblocks + offset := by
  unfold locate
  rw [mul_comm index, mul_add_div chunkNblocks_pos, div_eq_of_lt small, mul_add_mod, mod_eq_of_lt small, add_zero]

variable {pos nblocks : Nat} {tail : RawLogTail}

theorem locate_append_left {more : List ChunkId} (inside : pos < chunks.length * chunkNblocks) :
    locate (chunks ++ more) pos = locate chunks pos := by
  unfold locate
  rw [getElem?_append_left (Nat.div_lt_of_lt_mul (Nat.mul_comm _ _ ▸ inside))]

theorem locate_append_right (chunks more : List ChunkId) (pos : Nat) :
    locate (chunks ++ more) (chunks.length * chunkNblocks + pos) = locate more pos := by
  have split : chunks.length * chunkNblocks + pos =
      (chunks.length + pos / chunkNblocks) * chunkNblocks + pos % chunkNblocks := by
    rw [Nat.add_mul, add_assoc, div_add_mod']
  rw [split, locate_mul_add (mod_lt _ chunkNblocks_pos),
    getElem?_append_right (le_add_right _ _), Nat.add_sub_cancel_left]
  rfl

/-- Different positions are at different blocks, and different chunks share no block. -/
theorem locate_inj {chunks' : List ChunkId} {pos' : Nat} (inside : pos < chunks.length * chunkNblocks)
    (inside' : pos' < chunks'.length * chunkNblocks) (same : locate chunks pos = locate chunks' pos') :
    chunks[pos / chunkNblocks]? = chunks'[pos' / chunkNblocks]? ∧ pos % chunkNblocks = pos' % chunkNblocks := by
  have index := Nat.div_lt_of_lt_mul (Nat.mul_comm _ _ ▸ inside)
  have index' := Nat.div_lt_of_lt_mul (Nat.mul_comm _ _ ▸ inside')
  unfold locate at same
  rw [getElem?_eq_getElem index, getElem?_eq_getElem index'] at same ⊢
  have offset : pos % chunkNblocks = pos' % chunkNblocks := by
    have := congrArg (· % chunkNblocks) same
    simpa [mul_add_mod_self_right] using this
  refine ⟨?_, offset⟩
  rw [offset] at same
  exact congrArg some (eq_of_mul_eq_mul_right chunkNblocks_pos (add_right_cancel same))

/-- The loop over the chunks. -/
theorem chunkBlocks_run {count : Nat} (inside : offset + count ≤ chunks.length * chunkNblocks) :
    chunkBlocks chunks offset count = .ok ((range' offset count).map (locate chunks)) := by
  induction count generalizing offset with
  | zero => rfl
  | succ count ih =>
    have index : offset / chunkNblocks < chunks.length := Nat.div_lt_of_lt_mul (Nat.mul_comm _ _ ▸ by omega)
    unfold chunkBlocks
    rw [getElem?_eq_getElem index]
    dsimp only
    rw [ih (by omega), range'_succ]
    refine congrArg (fun b => ok (b :: _)) ?_
    unfold locate
    rw [getElem?_eq_getElem index]
    rfl

variable {head : RawLogHead}

theorem RawLogHead.prepareBlocks_run (inside : offset + nblocks ≤ head.chunks.length * chunkNblocks) :
    head.prepareBlocks offset nblocks = .ok ((range' offset nblocks).map (locate head.chunks)) := chunkBlocks_run inside

/-- The chunks have room for the blocks, and no chunk is unused. -/
def Fits (chunks : List ChunkId) (numBlocks : Nat) : Prop :=
  numBlocks ≤ chunks.length * chunkNblocks ∧ chunks.length * chunkNblocks < numBlocks + chunkNblocks

/-- The tail starts where the head ends. -/
structure Continues (head : RawLogHead) (tail : RawLogTail) : Prop where
  fits : Fits head.chunks head.numBlocks
  last : tail.headLastChunkId = head.chunks.getLast?.getD 0
  free : tail.headLastChunkFreeBlocks = head.chunks.length * chunkNblocks - head.numBlocks

theorem Continues.new : Continues .new .new where
  fits := ⟨zero_le _, by rw [RawLogHead.new]; simpa using chunkNblocks_pos⟩
  last := rfl
  free := by simp [RawLogTail.new, RawLogHead.new]

theorem Continues.fromHead (fits : Fits head.chunks head.numBlocks) :
    ∃ tail, RawLogTail.fromHead head = .ok tail ∧ Continues head tail ∧ tail.chunks = [] ∧
      tail.numBlocks = 0 := by
  have small : head.chunks.length * chunkNblocks - head.numBlocks < 2 ^ 16 := by
    have := fits.2
    rw [chunkNblocks_eq] at this ⊢
    omega
  refine ⟨⟨head.chunks.getLast?.getD 0, (head.chunks.length * chunkNblocks - head.numBlocks) % 2 ^ 16,
    [], 0⟩, ?_, ⟨fits, rfl, mod_eq_of_lt small⟩, rfl, rfl⟩
  unfold RawLogTail.fromHead
  rw [checkedSub_of_le fits.1]
  rfl

/-- A free block of the last chunk of the head. -/
theorem Continues.locate_free (cont : Continues head tail) (more : List ChunkId) {i : Nat}
    (free : i < tail.headLastChunkFreeBlocks) :
    locate (head.chunks ++ more) (head.numBlocks + i) = tail.headLastChunkId * chunkNblocks +
      (chunkNblocks - tail.headLastChunkFreeBlocks + i) := by
  obtain ⟨room, tight⟩ := cont.fits
  have free_eq := cont.free
  have inside : head.numBlocks + i < head.chunks.length * chunkNblocks := by omega
  have positive : 0 < head.chunks.length := Nat.pos_of_mul_pos_right (zero_lt_of_lt inside)
  have enough : chunkNblocks ≤ head.chunks.length * chunkNblocks := Nat.le_mul_of_pos_left _ positive
  have pred := Nat.sub_one_mul head.chunks.length chunkNblocks
  have offset : head.numBlocks + i = (head.chunks.length - 1) * chunkNblocks +
      (chunkNblocks - tail.headLastChunkFreeBlocks + i) := by omega
  rw [locate_append_left inside, offset, locate_mul_add (by omega), cont.last, getLast?_eq_getElem?]

/-- The tail computes the blocks of the positions after the head. -/
theorem RawLogTail.prepareBlocks_run (cont : Continues head tail)
    (inside : head.numBlocks + offset + nblocks ≤ (head.chunks ++ tail.chunks).length * chunkNblocks) :
    tail.prepareBlocks offset nblocks = .ok ((range' (head.numBlocks + offset) nblocks).map
      (locate (head.chunks ++ tail.chunks))) := by
  have free_eq := cont.free
  have room := cont.fits.1
  rw [length_append, Nat.add_mul] at inside
  -- positions past the last chunk of the head
  have own start count : (range' start count).map (locate tail.chunks) =
      (range' (head.chunks.length * chunkNblocks + start) count).map (locate (head.chunks ++ tail.chunks)) := by
    rw [← map_add_range', map_map]
    exact map_congr_left fun pos _ => (locate_append_right _ _ pos).symm
  have shared count (few : offset + count ≤ tail.headLastChunkFreeBlocks) :
      (range' offset count).map (fun i => tail.headLastChunkId * chunkNblocks +
        (chunkNblocks - tail.headLastChunkFreeBlocks + i)) =
      (range' (head.numBlocks + offset) count).map (locate (head.chunks ++ tail.chunks)) := by
    rw [← map_add_range', map_map]
    refine map_congr_left fun i mem => (cont.locate_free tail.chunks ?_).symm
    have := (mem_range'_1.mp mem).2
    omega
  unfold RawLogTail.prepareBlocks
  dsimp only
  split
  · next before =>
    have tight := cont.fits.2
    rw [checkedSub_of_le (by omega), ok_bind]
    by_cases few : nblocks ≤ tail.headLastChunkFreeBlocks - offset
    · have cut : range' offset (tail.headLastChunkFreeBlocks - offset) = range' offset nblocks ++
          range' (offset + nblocks) (tail.headLastChunkFreeBlocks - offset - nblocks) := by
        rw [range'_append_1, Nat.add_sub_cancel' few]
      have take : ((range' offset (tail.headLastChunkFreeBlocks - offset)).map fun i =>
          tail.headLastChunkId * chunkNblocks + (chunkNblocks - tail.headLastChunkFreeBlocks + i)).take nblocks =
          (range' (head.numBlocks + offset) nblocks).map (locate (head.chunks ++ tail.chunks)) := by
        rw [cut, map_append, take_left' (by simp), shared nblocks (by omega)]
      rw [take, length_map, length_range', Nat.sub_self]
      show ok (_ ++ []) = _
      rw [append_nil]
    · rw [take_of_length_le (by simp; omega), shared _ (by omega), length_map,
        length_range', chunkBlocks_run (by omega), ok_bind, own]
      show ok _ = _
      have next : head.chunks.length * chunkNblocks + 0 =
          head.numBlocks + offset + (tail.headLastChunkFreeBlocks - offset) := by omega
      rw [← map_append, next, range'_append_1, Nat.add_sub_cancel' (by omega)]
  · next after =>
    have same : head.chunks.length * chunkNblocks + (offset - tail.headLastChunkFreeBlocks) =
        head.numBlocks + offset := by omega
    rw [chunkBlocks_run (by omega), own, same]

variable {b : BlockId}

section Disk

variable {β : Type}

/-- Consecutive blocks are a range. -/
theorem eq_range'_of_consecutive {run : List BlockId} (chain : run.IsChain fun b1 b2 => consecutive b1 b2 = true) :
    run = range' (run.head?.getD 0) run.length := by
  induction run with
  | nil => rfl
  | cons b run ih =>
    cases run with
    | nil => rfl
    | cons b' run =>
      obtain ⟨step, chain⟩ := isChain_cons_cons.mp chain
      have next : b' = b + 1 := by
        have gap : b' - b = 1 := eq_of_beq step
        exact Nat.eq_add_of_sub_eq (le_of_lt (Nat.lt_of_sub_eq_succ gap)) gap |>.trans (add_comm _ _)
      have rest := ih chain
      refine congrArg (b :: ·) ?_
      rw [rest, next]
      simp

variable (disk : BlockId → β)

/-- A batched read returns the blocks one by one. -/
theorem readBlocks_eq (blocks : List BlockId) : readBlocks disk blocks = blocks.map disk := by
  unfold readBlocks
  have runs : ∀ run ∈ blocks.splitBy consecutive,
      readRun disk (run.head?.getD 0) run.length = run.map disk := fun run mem =>
    congrArg (map disk) (eq_range'_of_consecutive (isChain_of_mem_splitBy mem)).symm
  rw [flatMap_congr runs, flatMap_def, ← map_flatten, flatten_splitBy]

variable {buf : List β}

theorem writeRun_frame {first : BlockId} (outside : b ∉ range' first buf.length) :
    writeRun disk first buf b = disk b := by
  unfold writeRun
  split
  · next after =>
    have : buf.length ≤ b - first := by
      by_contra short
      exact outside (mem_range'_1.mpr ⟨after, by omega⟩)
    rw [getElem?_eq_none this]
    rfl
  · rfl

variable {x : β}

theorem writeRun_at {first i : Nat} (found : buf[i]? = some x) : writeRun disk first buf (first + i) = x := by
  unfold writeRun
  rw [if_pos (le_add_right _ _), Nat.add_sub_cancel_left, found]
  rfl

/-- Runs of consecutive blocks, as they are written one after another. -/
def AreRuns (runs : List (List BlockId)) : Prop :=
  ∀ run ∈ runs, run = List.range' (run.head?.getD 0) run.length

section

variable {runs : List (List BlockId)} (areRuns : AreRuns runs) (length : runs.flatten.length = buf.length)
include areRuns length

theorem writeRuns_frame (outside : b ∉ runs.flatten) (disk : BlockId → β) :
    writeRuns disk runs buf b = disk b := by
  induction runs generalizing disk buf with
  | nil => rfl
  | cons run runs ih =>
    rw [flatten_cons, length_append] at length
    rw [flatten_cons, mem_append, not_or] at outside
    unfold writeRuns
    rw [ih (fun r mem => areRuns r (mem_cons_of_mem _ mem)) (by rw [length_drop]; omega) outside.2]
    refine writeRun_frame disk ?_
    rw [length_take, min_eq_left (by omega), ← areRuns run mem_cons_self]
    exact outside.1

theorem writeRuns_at (nodup : runs.flatten.Nodup) {i : Nat} {x : β}
    (block : runs.flatten[i]? = some b) (found : buf[i]? = some x) (disk : BlockId → β) :
    writeRuns disk runs buf b = x := by
  induction runs generalizing disk buf i with
  | nil => cases block
  | cons run runs ih =>
    have rest : AreRuns runs := fun r mem => areRuns r (mem_cons_of_mem _ mem)
    rw [flatten_cons] at length nodup block
    rw [length_append] at length
    unfold writeRuns
    by_cases inside : i < run.length
    · -- this run writes the block and no later one does
      rw [getElem?_append_left inside] at block
      have apart := (nodup_append.mp nodup).2.2 b (mem_of_getElem? block)
      rw [writeRuns_frame rest (by rw [length_drop]; omega) fun mem => apart b mem rfl]
      have first := areRuns run mem_cons_self
      rw [first, getElem?_range' inside] at block
      cases block
      rw [one_mul]
      refine writeRun_at disk ?_
      rw [getElem?_take_of_lt inside]
      exact found
    · rw [getElem?_append_right (Nat.le_of_not_lt inside)] at block
      refine ih rest (by rw [length_drop]; omega) (nodup_append.mp nodup).2.1 block ?_ _
      rw [getElem?_drop, Nat.add_sub_cancel' (Nat.le_of_not_lt inside)]
      exact found

end

theorem areRuns_splitBy (blocks : List BlockId) : AreRuns (blocks.splitBy consecutive) :=
  fun _ mem => eq_range'_of_consecutive (isChain_of_mem_splitBy mem)

variable {blocks : List BlockId} (length : blocks.length = buf.length)
include length

/-- A batched write leaves every other block alone. -/
theorem writeBlocks_frame (outside : b ∉ blocks) (disk : BlockId → β) :
    writeBlocks disk blocks buf b = disk b := by
  have flat := flatten_splitBy consecutive blocks
  exact writeRuns_frame (areRuns_splitBy blocks) (flat.symm ▸ length) (flat.symm ▸ outside) disk

/-- A batched write to different blocks puts each item of the buffer in its block. -/
theorem writeBlocks_at (nodup : blocks.Nodup) {i : Nat} (block : blocks[i]? = some b) (found : buf[i]? = some x)
    (disk : BlockId → β) : writeBlocks disk blocks buf b = x := by
  have flat := flatten_splitBy consecutive blocks
  exact writeRuns_at (areRuns_splitBy blocks) (flat.symm ▸ length) (flat.symm ▸ nodup)
    (flat.symm ▸ block) found disk

end Disk

end OmegaOsx.MlsDisk
