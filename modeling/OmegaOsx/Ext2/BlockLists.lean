import OmegaOsx.Ext2.InodeBlocks

/-!
# Allocating and freeing single blocks

What a run of allocations takes (`Grabbed`) and what a run of `free_blocks` gives back (`Released`), as lists of
blocks. Where at every boundary of two groups a block is in use (`Separated`), no allocation is longer than
requested, since the range of one group cannot go on in the next.
-/

set_option linter.dupNamespace false

namespace OmegaOsx.Ext2

open BitRange List
open MlsDisk (ok_bind)

namespace Ext2

variable {fs fs' fs'' : Ext2} {start stop : Nat} {bids bids' : List Nat}

/-- The blocks of the list were free and are in use now. -/
structure Grabbed (fs : Ext2) (bids : List Nat) (fs' : Ext2) : Prop where
  wf : fs'.WF
  alike : Alike fs fs'
  nodup : bids.Nodup
  free : ∀ bid ∈ bids, fs.HasBlock bid ∧ fs.used bid = false
  used : ∀ bid, fs'.used bid = true ↔ fs.used bid = true ∨ bid ∈ bids
  count : fs'.freeBlocksCount + bids.length = fs.freeBlocksCount

/-- The blocks of the list are not in use any more. -/
structure Released (fs : Ext2) (bids : List Nat) (fs' : Ext2) : Prop where
  wf : fs'.WF
  alike : Alike fs fs'
  used : ∀ bid, fs'.used bid = true ↔ fs.used bid = true ∧ bid ∉ bids

theorem mem_range_iff {bid : Nat} : bid ∈ range' start (stop - start) ↔ start ≤ bid ∧ bid < stop := by
  rw [mem_range'_1]
  omega

theorem Grabbed.nil (h : fs.WF) : Grabbed fs [] fs :=
  ⟨h, .refl fs, .nil, fun _ mem => absurd mem not_mem_nil, fun _ => by simp, rfl⟩

theorem Grabbed.append (h : Grabbed fs bids fs') (h' : Grabbed fs' bids' fs'') : Grabbed fs (bids ++ bids') fs'' where
  wf := h'.wf
  alike := h.alike.trans h'.alike
  nodup := by
    refine nodup_append.mpr ⟨h.nodup, h'.nodup, fun a mem b mem' same => ?_⟩
    have := (h.used b).mpr (.inr (same ▸ mem))
    rw [(h'.free b mem').2] at this
    cases this
  free bid mem := by
    rcases mem_append.mp mem with mem | mem
    · exact h.free bid mem
    obtain ⟨there, free⟩ := h'.free bid mem
    refine ⟨(h.alike.hasBlock bid).mp there, Bool.eq_false_iff.mpr fun inUse => ?_⟩
    rw [(h.used bid).mpr (.inl inUse)] at free
    cases free
  used bid := by rw [h'.used, h.used, mem_append, or_assoc]
  count := by
    have := h.count
    have := h'.count
    rw [length_append]
    omega

theorem Allocates.grabbed (h : Allocates fs start stop fs') : Grabbed fs (range' start (stop - start)) fs' where
  wf := h.wf
  alike := h.alike
  nodup := nodup_range'
  free bid mem := by
    obtain ⟨le, lt⟩ := mem_range_iff.mp mem
    exact h.free bid le lt
  used bid := by
    rw [h.used, mem_range_iff]
    unfold setRange
    split
    · next inside => simp [inside]
    · next outside => simp [outside]
  count := by
    rw [length_range']
    exact h.count

theorem Released.nil (h : fs.WF) : Released fs [] fs := ⟨h, .refl fs, fun _ => by simp⟩

theorem Released.append (h : Released fs bids fs') (h' : Released fs' bids' fs'') : Released fs (bids ++ bids') fs'' :=
  ⟨h'.wf, h.alike.trans h'.alike, fun bid => by rw [h'.used, h.used, mem_append, not_or, and_assoc]⟩

theorem freeBlocksUnwrap_ok (start stop : Nat) (h : fs.WF) (inUse : fs.InUse start stop) :
    ∃ fs', fs.freeBlocksUnwrap start stop = .ok fs' ∧ Released fs (range' start (stop - start)) fs' := by
  obtain ⟨fs', eq⟩ := freeLoop_ok h le_rfl inUse
  obtain ⟨mid, -, le', -, changed, wf, last⟩ := freeLoop_inv h le_rfl eq
  have used : fs'.used = setRange false fs.used start stop := by
    rcases last rfl with rfl | empty
    · exact changed.used
    · rw [changed.used, setRange_empty (le_trans le' empty), setRange_empty empty]
  refine ⟨fs', ?_, wf, changed.alike, fun bid => ?_⟩
  · unfold freeBlocksUnwrap freeBlocks
    rw [eq]
    rfl
  · rw [used, mem_range_iff]
    unfold setRange
    split
    · next inside => simp [inside]
    · next outside => simp [outside]

theorem Released.inUse (h : Released fs bids fs') {bid : Nat}
    (inUse : fs.HasBlock bid ∧ fs.used bid = true) (free : bid ∉ bids) :
    fs'.HasBlock bid ∧ fs'.used bid = true :=
  ⟨(h.alike.hasBlock bid).mpr inUse.1, (h.used bid).mpr ⟨inUse.2, free⟩⟩

theorem freeEach_ok (h : fs.WF) (nodup : bids.Nodup)
    (inUse : ∀ bid ∈ bids, fs.HasBlock bid ∧ fs.used bid = true) :
    ∃ fs', fs.freeEach bids = .ok fs' ∧ Released fs bids fs' := by
  induction bids generalizing fs with
  | nil => exact ⟨fs, rfl, .nil h⟩
  | cons bid bids ih =>
    obtain ⟨fresh, nodup⟩ := nodup_cons.mp nodup
    obtain ⟨mid, eq, released⟩ := freeBlocksUnwrap_ok bid (bid + 1) h fun b le lt => by
      obtain rfl : b = bid := by omega
      exact inUse b mem_cons_self
    rw [Nat.add_sub_cancel_left] at released
    obtain ⟨fs', eq', released'⟩ := ih released.wf nodup fun b mem =>
      released.inUse (inUse b (mem_cons_of_mem _ mem)) fun same => fresh (mem_singleton.mp same ▸ mem)
    refine ⟨fs', ?_, released.append released'⟩
    rw [freeEach, eq, ok_bind, eq']

theorem Grabbed.undo (h : fs.WF) (grabbed : Grabbed fs bids fs') : fs'.freeEach bids = .ok fs := by
  obtain ⟨back, eq, released⟩ := freeEach_ok grabbed.wf grabbed.nodup fun bid mem =>
    ⟨(grabbed.alike.hasBlock bid).mpr (grabbed.free bid mem).1, (grabbed.used bid).mpr (.inr mem)⟩
  have used : back.used = fs.used := by
    funext bid
    rw [Bool.eq_iff_iff, released.used, grabbed.used]
    constructor
    · rintro ⟨inUse | mem, fresh⟩
      · exact inUse
      · exact absurd mem fresh
    · intro inUse
      refine ⟨.inl inUse, fun mem => ?_⟩
      rw [(grabbed.free bid mem).2] at inUse
      cases inUse
  rw [eq, h.eq released.wf (grabbed.alike.trans released.alike) used]

/-! ### Groups that cannot go on in the next -/

/-- At every boundary of two groups the last block of the one or the first block of the other is in use. -/
def Separated (fs : Ext2) : Prop :=
  ∀ g, g + 1 < fs.numGroups →
    fs.used ((g + 1) * fs.blocksPerGroup - 1) = true ∨ fs.used ((g + 1) * fs.blocksPerGroup) = true

theorem Separated.mono (h : fs.Separated) (alike : Alike fs fs')
    (more : ∀ bid, fs.used bid = true → fs'.used bid = true) :
    fs'.Separated := by
  intro g lt
  rw [alike.blocksPerGroup]
  exact (h g (alike.numGroups ▸ lt)).imp (more _) (more _)

theorem Separated.not_overruns (h : fs.Separated) (groups : fs.Groups) (idx count : Nat) :
    ¬ Overruns fs idx count := by
  rintro ⟨k, hit, len, start, more, first, serves, reaches, follows, long⟩
  have pos := groups.pos
  have taken := serves.pos
  -- The next group has given blocks, the first of which is its first block.
  have next : hit + 1 < fs.numGroups ∧ (fs.bitmap (hit + 1)).bits 0 = false := by
    have bit : ∀ {len'}, Serves (fs.bitmap (hit + 1)) count len' 0 → (fs.bitmap (hit + 1)).bits 0 = false :=
      fun serves' => serves'.fit.free.clear 0 le_rfl (by have := serves'.pos; omega)
    cases follows with
    | stop =>
      have := serves.le
      omega
    | part lt serves' => exact ⟨lt, bit serves'⟩
    | whole lt serves' => exact ⟨lt, bit serves'⟩
  have last : (fs.bitmap hit).bits (fs.blocksPerGroup - 1) = false := serves.fit.free.clear _ (by omega) (by omega)
  rcases h hit next.1 with inUse | inUse
  · have before : (hit + 1) * fs.blocksPerGroup - 1 = fs.blocksPerGroup * hit + (fs.blocksPerGroup - 1) := by
      rw [add_mul, mul_comm]
      omega
    rw [used, before, Nat.mul_add_div pos, Nat.mul_add_mod, Nat.div_eq_of_lt (by omega), Nat.mod_eq_of_lt (by omega),
      add_zero] at inUse
    exact absurd (inUse.symm.trans last) (by decide)
  · rw [used, Nat.mul_div_cancel _ pos, Nat.mul_mod_left] at inUse
    exact absurd (inUse.symm.trans next.2) (by decide)

theorem Grabbed.separated (h : Grabbed fs bids fs') (sep : fs.Separated) : fs'.Separated :=
  sep.mono h.alike fun bid inUse => (h.used bid).mpr (.inl inUse)

/-- An allocation fails only for lack of free blocks, and is never longer than requested. -/
theorem allocBlocks_grabbed (h : fs.WF) (sep : fs.Separated) (idx count : Nat) (pos : 0 < count) :
    (fs.allocBlocks idx count = .ok (none, fs) ∧ fs.freeBlocksCount < count) ∨
      ∃ start stop fs', fs.allocBlocks idx count = .ok (some (start, stop), fs') ∧ start < stop ∧
        stop - start ≤ count ∧
        Grabbed fs (range' start (stop - start)) fs' := by
  by_cases less : fs.freeBlocksCount < count
  · exact .inl ⟨allocBlocks_none less idx, less⟩
  · obtain ⟨start, stop, fs', eq, allocates, short⟩ := allocBlocks_ok h pos (not_lt.mp less) idx
    exact .inr ⟨start, stop, fs', eq, allocates.lt,
      short.mpr (sep.not_overruns h.toGroups idx count), allocates.grabbed⟩

/-- The loop takes the indirect blocks first. If it fails, everything is given back. -/
theorem allocIndirect_ok (h : fs.WF) {mid : Ext2} (grabbed : Grabbed fs bids mid) (sep : mid.Separated)
    {indirectCnt maxCnt fuel : Nat} (le : bids.length ≤ indirectCnt) (enough : indirectCnt - bids.length < fuel)
    (pos : 0 < maxCnt) (groupIdx : Nat) :
    (allocIndirect groupIdx indirectCnt fuel mid (maxCnt + (indirectCnt - bids.length)) bids = .ok (none, fs) ∧
        fs.freeBlocksCount < maxCnt + indirectCnt) ∨
      ∃ indirectBids start stop fs',
        allocIndirect groupIdx indirectCnt fuel mid (maxCnt + (indirectCnt - bids.length)) bids =
            .ok (some (indirectBids, start, stop), fs') ∧
          indirectBids.length = indirectCnt ∧ start < stop ∧ stop - start ≤ maxCnt ∧
          Grabbed fs (indirectBids ++ range' start (stop - start)) fs' := by
  induction fuel generalizing mid bids with
  | zero => omega
  | succ fuel ih =>
    rw [allocIndirect]
    have count := grabbed.count
    rcases allocBlocks_grabbed grabbed.wf sep groupIdx (maxCnt + (indirectCnt - bids.length)) (by omega) with
      ⟨eq, less⟩ | ⟨start, stop, fs', eq, lt, short, grabbed'⟩
    · rw [eq, ok_bind]
      dsimp only
      rw [grabbed.undo h]
      exact .inl ⟨rfl, by omega⟩
    rw [eq, ok_bind]
    dsimp only
    rw [require_of _ short]
    have both := grabbed.append grabbed'
    generalize rest : indirectCnt - bids.length = n at *
    split
    · next more =>
      refine .inr ⟨_, _, _, _, rfl, ?_, more, by omega, ?_⟩
      · rw [length_append, length_range']
        omega
      · rw [append_assoc, show start + min n (stop - start) = start + 1 * min n (stop - start) by omega,
          range'_append, show min n (stop - start) +
            (stop - (start + 1 * min n (stop - start))) = stop - start by omega]
        exact both
    · next all =>
      have taken : min n (stop - start) = stop - start := by omega
      rw [taken]
      have len : (bids ++ range' start (stop - start)).length = bids.length + (stop - start) := by
        rw [length_append, length_range']
      have total : maxCnt + n - (stop - start) =
          maxCnt + (indirectCnt - (bids ++ range' start (stop - start)).length) := by omega
      rw [total]
      exact ih both (grabbed'.separated sep) (by omega) (by omega)

end Ext2

end OmegaOsx.Ext2
