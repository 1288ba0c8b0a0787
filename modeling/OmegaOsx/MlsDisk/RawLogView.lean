import OmegaOsx.MlsDisk.RawLogBlocks

/-!
# One log as a transaction sees it

`View` relates the head and the tail of a log to what it should contain: the blocks of committed
transactions, and then those of the transaction itself.
-/

namespace OmegaOsx.MlsDisk

open List

variable {β : Type}

/-- The disk has the contents in the blocks of the chunks. -/
def OnDisk (disk : BlockId → β) (chunks : List ChunkId) (contents : List β) : Prop :=
  ∀ pos x, contents[pos]? = some x → disk (locate chunks pos) = x

/-- The chunks of a head and a tail. -/
def jointChunks (head : RawLogHead) (tail? : Option RawLogTail) : List ChunkId :=
  head.chunks ++ tail?.elim [] (·.chunks)

structure View (disk : BlockId → β) (head : RawLogHead) (tail? : Option RawLogTail)
    (committed pending : List β) : Prop where
  headLen : head.numBlocks = committed.length
  headFits : Fits head.chunks head.numBlocks
  fits : Fits (jointChunks head tail?) (committed ++ pending).length
  stored : OnDisk disk (jointChunks head tail?) (committed ++ pending)
  quiet : tail? = none → pending = []
  continued : ∀ tail, tail? = some tail → Continues head tail ∧ tail.numBlocks = pending.length

theorem Fits.nil : Fits [] 0 := ⟨Nat.zero_le _, by simpa using chunkNblocks_pos⟩

theorem locate_inj_nodup {chunks : List ChunkId} (nodup : chunks.Nodup) {pos pos' : Nat}
    (inside : pos < chunks.length * chunkNblocks) (inside' : pos' < chunks.length * chunkNblocks)
    (same : locate chunks pos = locate chunks pos') : pos = pos' := by
  obtain ⟨chunk, offset⟩ := locate_inj inside inside' same
  have index := Nat.div_lt_of_lt_mul (Nat.mul_comm _ _ ▸ inside)
  have quot : pos / chunkNblocks = pos' / chunkNblocks := (getElem?_inj index nodup).mp chunk
  rw [← Nat.div_add_mod' pos chunkNblocks, ← Nat.div_add_mod' pos' chunkNblocks, quot, offset]

variable {tail : RawLogTail}

namespace View

variable {disk : BlockId → β} {head : RawLogHead} {tail? : Option RawLogTail}
  {committed pending : List β}

/-- A log that is not there. -/
theorem absent (disk : BlockId → β) : View disk .new none [] [] where
  headLen := rfl
  headFits := Fits.nil
  fits := Fits.nil
  stored _ _ h := nomatch h
  quiet _ := rfl
  continued _ h := nomatch h

/-- Writes elsewhere do not matter. -/
theorem frame (view : View disk head tail? committed pending) {disk' : BlockId → β}
    (same : ∀ pos < (committed ++ pending).length,
      disk' (locate (jointChunks head tail?) pos) = disk (locate (jointChunks head tail?) pos)) :
    View disk' head tail? committed pending :=
  { view with
    stored := fun pos x found =>
      (same pos (List.getElem?_eq_some_iff.mp found).1).trans (view.stored pos x found) }

/-- A tail that is opened over the head. -/
theorem opened (view : View disk head none committed pending) (cont : Continues head tail) (empty : tail.chunks = [])
    (zero : tail.numBlocks = 0) : View disk head (some tail) committed pending := by
  have joint : jointChunks head (some tail) = jointChunks head none := by
    show head.chunks ++ tail.chunks = head.chunks ++ []
    rw [empty]
  exact { view with
      fits := joint ▸ view.fits
      stored := joint ▸ view.stored
      quiet := nofun
      continued := by
        rintro _ ⟨⟩
        exact ⟨cont, by rw [zero, view.quiet rfl]; rfl⟩ }

/-- Without the transaction's own blocks. -/
theorem aborted (view : View disk head tail? committed pending) : View disk head none committed [] where
  headLen := view.headLen
  headFits := view.headFits
  fits := by
    show Fits (head.chunks ++ []) (committed ++ []).length
    rw [append_nil, append_nil, ← view.headLen]
    exact view.headFits
  stored pos x found := by
    show disk (locate (head.chunks ++ []) pos) = x
    rw [append_nil] at found ⊢
    have before : pos < committed.length := (List.getElem?_eq_some_iff.mp found).1
    have inside : pos < head.chunks.length * chunkNblocks := before.trans_le (view.headLen ▸ view.headFits.1)
    rw [← locate_append_left inside]
    exact view.stored pos x ((getElem?_append_left before).trans found)
  quiet _ := rfl
  continued _ h := nomatch h

section

variable (view : View disk head (some tail) committed pending)

include view

/-- The transaction's blocks become part of the head. -/
theorem committed_tail : View disk ⟨head.chunks ++ tail.chunks, head.numBlocks + tail.numBlocks⟩ none
      (committed ++ pending) [] := by
  have len : head.numBlocks + tail.numBlocks = (committed ++ pending).length := by
    rw [length_append, view.headLen, (view.continued tail rfl).2]
  refine
    { headLen := len
      headFits := len ▸ view.fits
      fits := ?_
      stored := ?_
      quiet := fun _ => rfl
      continued := nofun }
  · show Fits ((head.chunks ++ tail.chunks) ++ []) ((committed ++ pending) ++ []).length
    rw [append_nil, append_nil]
    exact view.fits
  · show OnDisk disk ((head.chunks ++ tail.chunks) ++ []) ((committed ++ pending) ++ [])
    rw [append_nil, append_nil]
    exact view.stored

variable {needed : Nat} {newChunks : List ChunkId}

/-- The room for an append: the new chunks are just enough. -/
theorem room {count : Nat} (calc_eq : tail.calcNeededChunks count = .ok needed) (len : newChunks.length = needed) :
    Fits (head.chunks ++ (tail.chunks ++ newChunks)) ((committed ++ pending).length + count) := by
  obtain ⟨cont, tailLen⟩ := view.continued tail rfl
  obtain ⟨avail, sub, eq⟩ := bind_ok.mp calc_eq
  cases eq
  obtain ⟨-, rfl⟩ := checkedSub_ok.mp sub
  have fits := view.fits
  have headFits := view.headFits.1
  have headLen := view.headLen
  have free := cont.free
  have positive := chunkNblocks_pos
  have joint : (jointChunks head (some tail)).length = head.chunks.length + tail.chunks.length := length_append
  unfold Fits at fits ⊢
  rw [joint, Nat.add_mul, length_append] at fits
  rw [length_append, length_append, length_append, len, Nat.add_mul, Nat.add_mul]
  generalize head.chunks.length * chunkNblocks = a at *
  generalize tail.chunks.length * chunkNblocks = b at *
  by_cases more : count > tail.headLastChunkFreeBlocks + b - tail.numBlocks
  · rw [if_pos more]
    generalize gap : count - (tail.headLastChunkFreeBlocks + b - tail.numBlocks) = c
    have aligned : c ≤ alignUp c chunkNblocks ∧ alignUp c chunkNblocks < c + chunkNblocks := by
      unfold alignUp
      have := Nat.div_add_mod' (c + chunkNblocks - 1) chunkNblocks
      have := Nat.mod_lt (c + chunkNblocks - 1) positive
      omega
    have exact_div : alignUp c chunkNblocks / chunkNblocks * chunkNblocks = alignUp c chunkNblocks := by
      unfold alignUp
      rw [Nat.mul_div_cancel _ positive]
    omega
  · rw [if_neg more]
    omega

/-- An append writes its blocks after the others. -/
theorem appended {buf : List β} {blocks : List BlockId} {numBlocks : Nat}
    (calc_eq : tail.calcNeededChunks buf.length = .ok needed) (len : newChunks.length = needed)
    (nodup : (head.chunks ++ (tail.chunks ++ newChunks)).Nodup) (small : buf.length < 2 ^ 32)
    (prepared : RawLogTail.prepareBlocks { tail with chunks := tail.chunks ++ newChunks }
      tail.numBlocks buf.length = .ok blocks) (sum : addU32 tail.numBlocks (buf.length % 2 ^ 32) = .ok numBlocks) :
    blocks = (range' (committed ++ pending).length buf.length).map
        (locate (head.chunks ++ (tail.chunks ++ newChunks))) ∧
      View (writeBlocks disk blocks buf) head
        (some { tail with chunks := tail.chunks ++ newChunks, numBlocks }) committed
        (pending ++ buf) := by
  obtain ⟨cont, tailLen⟩ := view.continued tail rfl
  have room := view.room calc_eq len
  rw [Nat.mod_eq_of_lt small] at sum
  obtain ⟨-, rfl⟩ := addU32_ok.mp sum
  have cont' : Continues head { tail with chunks := tail.chunks ++ newChunks } := ⟨cont.fits, cont.last, cont.free⟩
  have start : head.numBlocks + tail.numBlocks = (committed ++ pending).length := by
    rw [length_append, view.headLen, tailLen]
  have inside : head.numBlocks + tail.numBlocks + buf.length ≤
      (head.chunks ++ (tail.chunks ++ newChunks)).length * chunkNblocks := start.symm ▸ room.1
  have blocks_eq := RawLogTail.prepareBlocks_run cont' inside
  rw [start] at blocks_eq
  cases prepared.symm.trans blocks_eq
  refine ⟨rfl, ?_⟩
  have located {pos pos' : Nat} (before : pos < (committed ++ pending).length + buf.length)
      (before' : pos' < (committed ++ pending).length + buf.length) :=
    locate_inj_nodup nodup (before.trans_le room.1) (before'.trans_le room.1)
  have different : ((range' (committed ++ pending).length buf.length).map
      (locate (head.chunks ++ (tail.chunks ++ newChunks)))).Nodup :=
    .map_on (fun pos mem pos' mem' => located (mem_range'_1.mp mem).2 (mem_range'_1.mp mem').2) nodup_range'
  have length : ((range' (committed ++ pending).length buf.length).map
      (locate (head.chunks ++ (tail.chunks ++ newChunks)))).length = buf.length := by
    rw [length_map, length_range']
  refine
    { headLen := view.headLen
      headFits := view.headFits
      fits := ?_
      stored := fun pos x found => ?_
      quiet := nofun
      continued := ?_ }
  · rw [← append_assoc, length_append]
    exact room
  · rw [← append_assoc] at found
    show writeBlocks disk _ buf (locate (head.chunks ++ (tail.chunks ++ newChunks)) pos) = x
    by_cases old : pos < (committed ++ pending).length
    · have inside_old : pos < (head.chunks ++ tail.chunks).length * chunkNblocks := old.trans_le view.fits.1
      rw [writeBlocks_frame length ?_, ← append_assoc, locate_append_left inside_old]
      · exact view.stored pos x ((getElem?_append_left old).symm.trans found)
      intro mem
      obtain ⟨pos', mem, same⟩ := mem_map.mp mem
      obtain ⟨after, before⟩ := mem_range'_1.mp mem
      have := located before (Nat.lt_add_right _ old) same
      omega
    · obtain ⟨i, rfl⟩ := Nat.exists_eq_add_of_le (Nat.le_of_not_lt old)
      rw [getElem?_append_right (Nat.le_add_right _ _), Nat.add_sub_cancel_left] at found
      refine writeBlocks_at length different ?_ found disk
      have bound : i < buf.length := (List.getElem?_eq_some_iff.mp found).1
      rw [getElem?_map, getElem?_range' bound, one_mul]
      rfl
  · rintro _ ⟨⟩
    exact ⟨⟨cont.fits, cont.last, cont.free⟩, by rw [length_append, tailLen]⟩

end

/-- Reading block by block. -/
theorem slice (view : View disk head tail? committed pending) {pos n : Nat}
    (inside : pos + n ≤ (committed ++ pending).length) :
    (range' pos n).map (fun q => disk (locate (jointChunks head tail?) q)) =
      ((committed ++ pending).drop pos).take n := by
  refine ext_getElem? fun i => ?_
  rw [getElem?_map]
  by_cases few : i < n
  · have bound : pos + i < (committed ++ pending).length := by omega
    rw [getElem?_range' few, one_mul, getElem?_take_of_lt few, getElem?_drop, getElem?_eq_getElem bound]
    exact congrArg some (view.stored _ _ (getElem?_eq_getElem bound))
  · have beyond : ((committed ++ pending).drop pos |>.take n).length ≤ i := by
      rw [length_take]
      omega
    rw [getElem?_eq_none beyond, getElem?_eq_none (by rw [length_range']; omega)]
    rfl

end View

end OmegaOsx.MlsDisk
