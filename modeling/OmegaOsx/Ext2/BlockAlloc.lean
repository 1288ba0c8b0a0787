import OmegaOsx.Ext2.IdAlloc
import OmegaOsx.Lib.Run
import Mathlib.Algebra.Order.BigOperators.Group.Finset
import Mathlib.Data.Finset.Update

/-!
# Block allocation

`alloc_blocks` and `free_blocks` of `ext2/fs.rs` and `ext2/block_group.rs`, and the inode numbers beside
them. `WF` says that the counters of the superblock and of the groups are those of the bitmaps.

A group serves a request with the first free range of the requested length or, if there is none, of a half
of it, of a quarter, and so on (`Serves`). The blocks of the first group that has free ones are not
subtracted from what the following groups are asked for, so that they may be joined by as many blocks again:
`Overruns` says when the range is longer than requested.
-/

set_option linter.dupNamespace false

namespace OmegaOsx.Ext2

open BitRange IdAlloc
open MlsDisk (ok_bind bind_ok)

/-- The counters of `descriptor` and the bitmaps of a group. -/
structure GroupMetadata where
  blockBitmap : IdAlloc
  freeBlocksCount : Nat
  inodeBitmap : IdAlloc
  freeInodesCount : Nat
  dirsCount : Nat

namespace GroupMetadata

/-- The loop of `alloc_blocks`. -/
def allocHalving (g : GroupMetadata) : Nat → Nat → Res (Option (Nat × Nat) × GroupMetadata)
  | 0, _ => .ok (none, g)
  | fuel + 1, currentCount =>
    if currentCount = 0 then .ok (none, g)
    else do
      let (range, blockBitmap) ← g.blockBitmap.allocConsecutive currentCount
      match range with
      | none => allocHalving g fuel (currentCount / 2)
      | some range =>
        if g.freeBlocksCount < currentCount then panicWith "called `Option::unwrap()` on a `None` value"
        else pure (some range, { g with blockBitmap, freeBlocksCount := g.freeBlocksCount - currentCount })

variable (g : GroupMetadata)

/-- `alloc_blocks`, behind the fast path of `BlockGroup`. -/
def allocBlocks (count : Nat) : Res (Option (Nat × Nat) × GroupMetadata) :=
  if g.freeBlocksCount = 0 then .ok (none, g)
  else g.allocHalving (min count g.freeBlocksCount) (min count g.freeBlocksCount)

/-- `free_blocks`, behind the assertions of `BlockGroup`. -/
def freeBlocks (start stop : Nat) : Res GroupMetadata :=
  if stop ≤ start then .ok g
  else do
    require (∀ i < stop - start, g.blockBitmap.isAllocated (start + i))
      "assertion failed: inner.metadata.is_block_allocated(idx)"
    let blockBitmap ← g.blockBitmap.freeConsecutive start stop
    require (g.freeBlocksCount + (stop - start) < 2 ^ 16) "called `Option::unwrap()` on a `None` value"
    pure { g with blockBitmap, freeBlocksCount := g.freeBlocksCount + (stop - start) }

def freeInode (inodeIdx : Nat) (isDir : Bool) : Res GroupMetadata := do
  require (g.inodeBitmap.isAllocated inodeIdx) "assertion failed: inner.metadata.is_inode_allocated(inode_idx)"
  let inodeBitmap ← g.inodeBitmap.freeOne inodeIdx
  require (g.freeInodesCount + 1 < 2 ^ 16) "attempt to add with overflow"
  require (isDir = true → 0 < g.dirsCount) "assertion failed: self.descriptor.dirs_count > 0"
  pure { g with
    inodeBitmap
    freeInodesCount := g.freeInodesCount + 1
    dirsCount := g.dirsCount - if isDir then 1 else 0 }

end GroupMetadata

/-- The parts of `Ext2` the allocation works on. -/
structure Ext2 where
  blocksPerGroup : Nat
  inodesPerGroup : Nat
  /-- The length of `block_groups`. -/
  numGroups : Nat
  blockGroups : Nat → GroupMetadata
  /-- The counters of the superblock. -/
  freeBlocksCount : Nat
  freeInodesCount : Nat

namespace Ext2

variable (fs : Ext2)

def setGroup (idx : Nat) (g : GroupMetadata) : Ext2 :=
  { fs with blockGroups := Function.update fs.blockGroups idx g }

/-- The loop of `alloc_blocks`. -/
def allocLoop : Nat → Ext2 → Nat → Nat → Option (Nat × Nat) → Res (Option (Nat × Nat) × Ext2)
  | 0, fs, _, _, allocated => .ok (allocated, fs)
  | fuel + 1, fs, blockGroupIdx, remaining, allocated =>
    if remaining = 0 then .ok (allocated, fs)
    else do
      let idx := if fs.numGroups ≤ blockGroupIdx then 0 else blockGroupIdx
      let (rangeInGroup, g) ← (fs.blockGroups idx).allocBlocks remaining
      match rangeInGroup with
      | none => allocLoop fuel fs (idx + 1) remaining allocated
      | some (start, stop) =>
        let deviceStart := idx * fs.blocksPerGroup + start
        match allocated with
        | none =>
          allocLoop fuel (fs.setGroup idx g) (idx + 1) remaining
            (some (deviceStart, deviceStart + (stop - start)))
        | some (first, last) =>
          if last = deviceStart then
            allocLoop fuel (fs.setGroup idx g) (idx + 1) (remaining - (stop - start))
              (some (first, deviceStart + (stop - start)))
          else do
            let g ← g.freeBlocks start stop
            pure (some (first, last), fs.setGroup idx g)

/-- `dec_free_blocks` of the superblock for an allocated range. -/
def decFreeBlocks : Option (Nat × Nat) → Res Ext2
  | none => .ok fs
  | some (start, stop) =>
    if fs.freeBlocksCount < stop - start then panicWith "called `Option::unwrap()` on a `None` value"
    else .ok { fs with freeBlocksCount := fs.freeBlocksCount - (stop - start) }

def allocBlocks (blockGroupIdx count : Nat) : Res (Option (Nat × Nat) × Ext2) :=
  if fs.freeBlocksCount < count then .ok (none, fs)
  else do
    let (allocated, fs) ← allocLoop fs.numGroups fs blockGroupIdx count none
    let fs ← fs.decFreeBlocks allocated
    pure (allocated, fs)

/-- The loop of `free_blocks`; an error leaves what is freed so far. -/
def freeLoop : Nat → Ext2 → Nat → Nat → Res (Except Errno Unit × Ext2)
  | 0, fs, _, _ => .ok (.ok (), fs)
  | fuel + 1, fs, start, stop =>
    if stop ≤ start then .ok (.ok (), fs)
    else
      let idx := start / fs.blocksPerGroup
      if fs.numGroups ≤ idx then .ok (.error .einval, fs)
      else do
        let first := start % fs.blocksPerGroup
        let len := min (stop - start) (fs.blocksPerGroup - first)
        require (fs.freeBlocksCount + len < 2 ^ 32) "called `Option::unwrap()` on a `None` value"
        let g ← (fs.blockGroups idx).freeBlocks first (first + len)
        freeLoop fuel { fs.setGroup idx g with freeBlocksCount := fs.freeBlocksCount + len } (start + len) stop

def freeBlocks (start stop : Nat) : Res (Except Errno Unit × Ext2) :=
  freeLoop (stop - start) fs start stop

/-- `free_blocks(range).unwrap()`. -/
def freeBlocksUnwrap (start stop : Nat) : Res Ext2 := do
  let (result, fs) ← fs.freeBlocks start stop
  match result with
  | .ok _ => pure fs
  | .error _ => panicWith "called `Result::unwrap()` on an `Err` value"

def freeInode (fs : Ext2) (ino : Nat) (isDir : Bool) : Res (Except Errno Unit × Ext2) :=
  let idx := (ino - 1) / fs.inodesPerGroup
  if fs.numGroups ≤ idx then .ok (.error .enoent, fs)
  else do
    require (0 < ino) "attempt to subtract with overflow"
    require (fs.freeInodesCount + 1 < 2 ^ 32) "attempt to add with overflow"
    let g ← (fs.blockGroups idx).freeInode ((ino - 1) % fs.inodesPerGroup) isDir
    pure (.ok (), { fs.setGroup idx g with freeInodesCount := fs.freeInodesCount + 1 })

end Ext2

/-! ### One group -/

variable {a : IdAlloc}

theorem IdAlloc.WF.eq {a' : IdAlloc} (wf : a.WF) (wf' : a'.WF) (len : a.len = a'.len) (bits : a.bits = a'.bits) :
    a = a' := by
  have first : a.firstAvailableId = a'.firstAvailableId := by rw [wf.first, wf'.first, len, bits]
  cases a
  cases a'
  subst len bits first
  rfl

/-- How a bitmap serves a request: with the first free range of the largest length that fits among the
request, its half, its quarter and so on. -/
structure Serves (a : IdAlloc) (count len start : Nat) : Prop where
  pos : 0 < len
  fit : a.FirstFit len start
  halved : ∃ k, len = min count a.numFree / 2 ^ k ∧ ∀ j < k, ∀ s, ¬ a.Free s (s + min count a.numFree / 2 ^ j)

section

variable {count len start : Nat} (h : Serves a count len start)
include h

theorem Serves.le : len ≤ count := by
  obtain ⟨k, rfl, -⟩ := h.halved
  exact le_trans (Nat.div_le_self _ _) (min_le_left _ _)

theorem Serves.numFree_pos : 0 < a.numFree := by
  have within := h.fit.free.within
  have pos := h.pos
  exact countClear_pos.mpr ⟨start, by omega, h.fit.free.clear start le_rfl (by omega)⟩

/-- A request can be served in one way only. -/
theorem Serves.unique {len' start' : Nat} (h' : Serves a count len' start') : len = len' ∧ start = start' := by
  obtain ⟨k, eq, larger⟩ := h.halved
  obtain ⟨k', eq', larger'⟩ := h'.halved
  have same : k = k' := by
    rcases lt_trichotomy k k' with lt | same | gt
    · exact absurd (eq ▸ h.fit.free) (larger' k lt start)
    · exact same
    · exact absurd (eq' ▸ h'.fit.free) (larger k' gt start')
  subst same
  obtain rfl : len = len' := eq.trans eq'.symm
  refine ⟨rfl, ?_⟩
  rcases lt_trichotomy start start' with lt | same | gt
  · exact absurd h.fit.free (h'.fit.first start lt)
  · exact same
  · exact absurd h'.fit.free (h.fit.first start' gt)

end

namespace GroupMetadata

/-- The counter is the number of clear bits. -/
structure WF (g : GroupMetadata) : Prop where
  bitmap : g.blockBitmap.WF
  count : g.freeBlocksCount = g.blockBitmap.numFree
  small : g.blockBitmap.len ≤ 2 ^ 15
  beyond : ∀ i, g.blockBitmap.len ≤ i → g.blockBitmap.bits i = false

variable {g g' : GroupMetadata} {count start stop len : Nat}

/-- A group that is like the old one but for a range of blocks. -/
structure Swap (v : Bool) (g : GroupMetadata) (start stop : Nat) (g' : GroupMetadata) : Prop where
  wf : g'.WF
  len : g'.blockBitmap.len = g.blockBitmap.len
  bits : g'.blockBitmap.bits = setRange v g.blockBitmap.bits start stop
  inodeBitmap : g'.inodeBitmap = g.inodeBitmap
  freeInodesCount : g'.freeInodesCount = g.freeInodesCount
  dirsCount : g'.dirsCount = g.dirsCount

theorem numFree_set {a' : IdAlloc} (free : a.Free start stop) (len : a'.len = a.len)
    (bits : a'.bits = setRange true a.bits start stop) : a'.numFree + (stop - start) = a.numFree := by
  have := countClear_set_true free.clear a.len
  rw [min_eq_left free.within] at this
  rw [numFree, len, bits]
  exact this

variable (wf : g.WF)
include wf

/-- The loop halves the request until it fits; a single free block always does. -/
theorem allocHalving_ok (avail : 0 < g.blockBitmap.numFree) {fuel k n : Nat}
    (eq : n = min count g.blockBitmap.numFree / 2 ^ k)
    (larger : ∀ j < k, ∀ s, ¬ g.blockBitmap.Free s (s + min count g.blockBitmap.numFree / 2 ^ j))
    (pos : 0 < n) (enough : n ≤ fuel) :
    ∃ start len g', g.allocHalving fuel n = .ok (some (start, start + len), g') ∧
      Serves g.blockBitmap count len start ∧ Swap true g start (start + len) g' := by
  induction fuel generalizing k n with
  | zero => omega
  | succ fuel ih =>
    rw [allocHalving, if_neg (ne_of_gt pos)]
    rcases allocConsecutive_ok wf.bitmap pos avail
      with ⟨result, none⟩ | ⟨start, a', result, fit, wf', len, bits⟩
    · rw [result]
      refine ih (k := k + 1) ?_ ?_ ?_ ?_
      · rw [eq, Nat.div_div_eq_div_mul, pow_succ]
      · intro j lt s
        rcases Nat.lt_succ_iff_lt_or_eq.mp lt with lt | rfl
        · exact larger j lt s
        · rw [← eq]
          exact none s
      · -- A request for one block is met by any free one.
        refine pos_of_ne_zero fun zero => ?_
        obtain ⟨i, lt, clear⟩ := countClear_pos.mp avail
        refine none i ⟨Nat.le_add_right _ _, by omega, fun x le lt' => ?_⟩
        obtain rfl : x = i := by omega
        exact clear
      · omega
    · have free := numFree_set fit.free len bits
      have bound : ¬ g.freeBlocksCount < n := by
        rw [wf.count]
        omega
      rw [result, ok_bind]
      dsimp only
      rw [if_neg bound]
      refine ⟨start, n, _, rfl, ⟨pos, fit, k, eq, larger⟩, ⟨wf', ?_, len ▸ wf.small, ?_⟩, len, bits,
        rfl, rfl, rfl⟩
      · rw [wf.count]
        dsimp only
        omega
      · intro i le
        dsimp only at le ⊢
        have := fit.free.within
        rw [bits, setRange_of_not_mem (by omega)]
        exact wf.beyond i (by omega)

/-- `alloc_blocks` of a group serves every request as long as there is a free block. -/
theorem allocBlocks_ok (pos : 0 < count) :
    (g.allocBlocks count = .ok (none, g) ∧ g.blockBitmap.numFree = 0) ∨
      ∃ start len g', g.allocBlocks count = .ok (some (start, start + len), g') ∧
        Serves g.blockBitmap count len start ∧ Swap true g start (start + len) g' := by
  unfold allocBlocks
  by_cases avail : 0 < g.blockBitmap.numFree
  · rw [if_neg (by rw [wf.count]; omega)]
    have request : min count g.freeBlocksCount = min count g.blockBitmap.numFree / 2 ^ 0 := by
      rw [wf.count, pow_zero, Nat.div_one]
    refine .inr (allocHalving_ok wf avail request (fun j lt => absurd lt (Nat.not_lt_zero j)) ?_ le_rfl)
    omega
  · have zero : g.blockBitmap.numFree = 0 := by omega
    exact .inl ⟨if_pos (wf.count.trans zero), zero⟩

theorem freeBlocks_ok (lt : start < stop) (within : stop ≤ g.blockBitmap.len)
    (set : All true g.blockBitmap.bits start stop) :
    ∃ g', g.freeBlocks start stop = .ok g' ∧ Swap false g start stop g' := by
  obtain ⟨a', eq, wf', len, bits⟩ := freeConsecutive_ok wf.bitmap lt within set
  have count : a'.numFree = g.blockBitmap.numFree + (stop - start) := by
    have := countClear_set_false set g.blockBitmap.len
    rw [min_eq_left within] at this
    rw [numFree, len, bits]
    exact this
  have bound : a'.numFree ≤ 2 ^ 15 := le_trans (countClear_le _ _) (len ▸ wf.small)
  have asserted : ∀ i < stop - start, g.blockBitmap.isAllocated (start + i) = true := fun i below =>
    set (start + i) (by omega) (by omega)
  have room : g.freeBlocksCount + (stop - start) < 2 ^ 16 := by
    rw [wf.count]
    omega
  unfold freeBlocks
  rw [if_neg (not_le.mpr lt), require_of _ asserted, eq, require_of _ room]
  refine ⟨_, rfl, ⟨wf', ?_, len ▸ wf.small, ?_⟩, len, bits, rfl, rfl, rfl⟩
  · rw [wf.count, count]
  intro i le
  dsimp only at le ⊢
  rw [bits, setRange_of_not_mem (by omega)]
  exact wf.beyond i (by omega)

/-- A range that can be freed is in use. -/
theorem freeBlocks_inv (lt : start < stop) (freed : g.freeBlocks start stop = .ok g') :
    stop ≤ g.blockBitmap.len ∧ All true g.blockBitmap.bits start stop := by
  unfold freeBlocks at freed
  rw [if_neg (not_le.mpr lt), bind_ok] at freed
  obtain ⟨_, asserted, -⟩ := freed
  have set : All true g.blockBitmap.bits start stop := fun i le lt => by
    have := require_ok.mp asserted (i - start) (by omega)
    rwa [Nat.add_sub_cancel' le] at this
  refine ⟨not_lt.mp fun exceeds => ?_, set⟩
  have := set (stop - 1) (by omega) (by omega)
  rw [wf.beyond (stop - 1) (by omega)] at this
  cases this

/-- Freeing what was taken gives the group back. -/
theorem Swap.undo (took : Swap true g start stop g') (free : g.blockBitmap.Free start stop)
    (lt : start < stop) : g'.freeBlocks start stop = .ok g := by
  obtain ⟨back, eq, wf', len, bits, inodes, count, dirs⟩ := freeBlocks_ok took.wf lt (took.len ▸ free.within)
    (fun i le lt => took.bits ▸ setRange_of_mem ⟨le, lt⟩)
  have bitmap : back.blockBitmap = g.blockBitmap := by
    refine wf'.bitmap.eq wf.bitmap (len.trans took.len) ?_
    rw [bits, took.bits, setRange_undo free.clear]
  have blocks : back.freeBlocksCount = g.freeBlocksCount := by rw [wf'.count, wf.count, bitmap]
  rw [eq]
  cases back
  cases g
  cases bitmap.trans rfl
  cases blocks.trans rfl
  cases inodes.trans took.inodeBitmap
  cases count.trans took.freeInodesCount
  cases dirs.trans took.dirsCount
  rfl

end GroupMetadata

end OmegaOsx.Ext2
