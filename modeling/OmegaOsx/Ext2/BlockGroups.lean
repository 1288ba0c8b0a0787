import OmegaOsx.Ext2.BlockAlloc

/-!
# Ranges of blocks over all groups

The blocks of all groups as one bitmap (`used`), and what `alloc_blocks` and `free_blocks` do to it. The
groups are tried in the order of `visits`. Once a group has given blocks, a following group only adds to
them if the ranges meet (`Follows`); if they do not, what it gave is freed again.
-/

set_option linter.dupNamespace false

namespace OmegaOsx.Ext2

open BitRange Function Finset GroupMetadata Nat
open MlsDisk (bind_ok update_same)

namespace Ext2

variable (fs : Ext2)

/-- Whether a block is in use. -/
def used (bid : Nat) : Bool :=
  (fs.blockGroups (bid / fs.blocksPerGroup)).blockBitmap.bits (bid % fs.blocksPerGroup)

/-- A block of the file system. -/
def HasBlock (bid : Nat) : Prop :=
  bid / fs.blocksPerGroup < fs.numGroups ∧
    bid % fs.blocksPerGroup < (fs.blockGroups (bid / fs.blocksPerGroup)).blockBitmap.len

def freeInGroups : Nat := ∑ g ∈ Finset.range fs.numGroups, (fs.blockGroups g).blockBitmap.numFree

/-- All groups but the last are of the same size, and each counts its clear bits. -/
structure Groups (fs : Ext2) : Prop where
  pos : 0 < fs.blocksPerGroup
  group : ∀ g < fs.numGroups, (fs.blockGroups g).WF
  le : ∀ g < fs.numGroups, (fs.blockGroups g).blockBitmap.len ≤ fs.blocksPerGroup
  full : ∀ g, g + 1 < fs.numGroups → (fs.blockGroups g).blockBitmap.len = fs.blocksPerGroup
  total : ∑ g ∈ Finset.range fs.numGroups, (fs.blockGroups g).blockBitmap.len < 2 ^ 32

/-- The superblock counts the free blocks of all groups, and each group its clear bits. -/
structure WF (fs : Ext2) : Prop extends Groups fs where
  count : fs.freeBlocksCount = fs.freeInGroups

/-- Two states that differ at most in the blocks in use and in the number of free ones. -/
structure Alike (fs fs' : Ext2) : Prop where
  blocksPerGroup : fs'.blocksPerGroup = fs.blocksPerGroup
  inodesPerGroup : fs'.inodesPerGroup = fs.inodesPerGroup
  numGroups : fs'.numGroups = fs.numGroups
  freeInodesCount : fs'.freeInodesCount = fs.freeInodesCount
  len : ∀ g, (fs'.blockGroups g).blockBitmap.len = (fs.blockGroups g).blockBitmap.len
  inodeBitmap : ∀ g, (fs'.blockGroups g).inodeBitmap = (fs.blockGroups g).inodeBitmap
  groupInodesCount : ∀ g, (fs'.blockGroups g).freeInodesCount = (fs.blockGroups g).freeInodesCount
  dirsCount : ∀ g, (fs'.blockGroups g).dirsCount = (fs.blockGroups g).dirsCount
  outside : ∀ g, fs.numGroups ≤ g → fs'.blockGroups g = fs.blockGroups g

namespace Alike

theorem refl : Alike fs fs :=
  ⟨rfl, rfl, rfl, rfl, fun _ => rfl, fun _ => rfl, fun _ => rfl, fun _ => rfl, fun _ _ => rfl⟩

theorem trans {fs fs' fs'' : Ext2} (h : Alike fs fs') (h' : Alike fs' fs'') : Alike fs fs'' :=
  ⟨h'.blocksPerGroup.trans h.blocksPerGroup, h'.inodesPerGroup.trans h.inodesPerGroup, h'.numGroups.trans h.numGroups,
    h'.freeInodesCount.trans h.freeInodesCount, fun g => (h'.len g).trans (h.len g),
    fun g => (h'.inodeBitmap g).trans (h.inodeBitmap g),
    fun g => (h'.groupInodesCount g).trans (h.groupInodesCount g), fun g => (h'.dirsCount g).trans (h.dirsCount g),
    fun g le => (h'.outside g (h.numGroups ▸ le)).trans (h.outside g le)⟩

theorem hasBlock {fs fs' : Ext2} (h : Alike fs fs') (bid : Nat) : fs'.HasBlock bid ↔ fs.HasBlock bid := by
  unfold HasBlock
  rw [h.blocksPerGroup, h.numGroups, h.len]

end Alike

variable {fs fs' : Ext2} {idx start stop len : Nat} {v : Bool} {g g' : GroupMetadata}

theorem setGroup_same (fs : Ext2) (idx : Nat) : fs.setGroup idx (fs.blockGroups idx) = fs := by
  rw [setGroup, update_eq_self]

theorem Groups.blockGroups_eq (h : fs.Groups) (h' : fs'.Groups) (alike : Alike fs fs') (used : fs'.used = fs.used) :
    fs'.blockGroups = fs.blockGroups := by
  have bits : ∀ g < fs.numGroups, (fs'.blockGroups g).blockBitmap.bits = (fs.blockGroups g).blockBitmap.bits := by
    intro g lt
    funext i
    by_cases inside : i < fs.blocksPerGroup
    · have := congrFun used (g * fs.blocksPerGroup + i)
      unfold Ext2.used at this
      rwa [alike.blocksPerGroup, mul_comm, mul_add_div h.pos, div_eq_of_lt inside, add_zero,
        mul_add_mod, mod_eq_of_lt inside] at this
    · have le := h.le g lt
      have le' := alike.len g
      rw [(h.group g lt).beyond i (by omega), (h'.group g (alike.numGroups ▸ lt)).beyond i (by omega)]
  funext g
  by_cases lt : g < fs.numGroups
  · have wf := h.group g lt
    have wf' := h'.group g (alike.numGroups ▸ lt)
    have bitmap := wf'.bitmap.eq wf.bitmap (alike.len g) (bits g lt)
    have blocks : (fs'.blockGroups g).freeBlocksCount = (fs.blockGroups g).freeBlocksCount := by
      rw [wf'.count, wf.count, bitmap]
    have inodes := alike.inodeBitmap g
    have inodesCount := alike.groupInodesCount g
    have dirs := alike.dirsCount g
    generalize fs'.blockGroups g = x at *
    generalize fs.blockGroups g = y at *
    cases x
    cases y
    subst bitmap blocks inodes inodesCount dirs
    rfl
  · exact alike.outside g (not_lt.mp lt)

/-- A state is known from the blocks in use. -/
theorem WF.eq (h : fs.WF) (h' : fs'.WF) (alike : Alike fs fs') (used : fs'.used = fs.used) : fs' = fs := by
  have groups := h.toGroups.blockGroups_eq h'.toGroups alike used
  have count : fs'.freeBlocksCount = fs.freeBlocksCount := by
    rw [h.count, h'.count, freeInGroups, freeInGroups, groups, alike.numGroups]
  obtain ⟨blocksPerGroup, inodesPerGroup, numGroups, freeInodesCount, -⟩ := alike
  cases fs
  cases fs'
  subst blocksPerGroup inodesPerGroup numGroups freeInodesCount groups count
  rfl

/-! ### Changing one group -/

/-- A state that is like the old one but for a range of blocks. -/
structure Changed (v : Bool) (fs : Ext2) (start stop : Nat) (fs' : Ext2) : Prop where
  groups : fs'.Groups
  alike : Alike fs fs'
  used : fs'.used = setRange v fs.used start stop

theorem Changed.refl (h : fs.Groups) (le : stop ≤ start) : Changed v fs start stop fs :=
  ⟨h, .refl fs, (setRange_empty le).symm⟩

theorem Changed.append {mid : Nat} {fs'' : Ext2} (h : Changed v fs start mid fs') (h' : Changed v fs' mid stop fs'')
    (le : start ≤ mid) (le' : mid ≤ stop) : Changed v fs start stop fs'' :=
  ⟨h'.groups, h.alike.trans h'.alike, by rw [h'.used, h.used, setRange_append le le']⟩

theorem mem_group_iff (pos : 0 < fs.blocksPerGroup) (within : stop ≤ fs.blocksPerGroup) (idx start bid : Nat) :
    (idx * fs.blocksPerGroup + start ≤ bid ∧ bid < idx * fs.blocksPerGroup + stop) ↔
      bid / fs.blocksPerGroup = idx ∧ start ≤ bid % fs.blocksPerGroup ∧ bid % fs.blocksPerGroup < stop := by
  have parts := div_add_mod bid fs.blocksPerGroup
  rw [mul_comm] at parts
  constructor
  · rintro ⟨le, lt'⟩
    have same : bid / fs.blocksPerGroup = idx := by
      refine (Nat.div_eq_iff pos).mpr ⟨by omega, ?_⟩
      omega
    rw [same] at parts
    exact ⟨same, by omega, by omega⟩
  · rintro ⟨same, le, lt'⟩
    rw [same] at parts
    omega

theorem setGroup_changed (h : fs.Groups) (lt : idx < fs.numGroups)
    (swap : GroupMetadata.Swap v (fs.blockGroups idx) start stop g')
    (within : stop ≤ (fs.blockGroups idx).blockBitmap.len) :
    Changed v fs (idx * fs.blocksPerGroup + start) (idx * fs.blocksPerGroup + stop) (fs.setGroup idx g') := by
  have old : ∀ g, g ≠ idx → (fs.setGroup idx g').blockGroups g = fs.blockGroups g := fun g ne =>
    update_of_ne ne _ _
  have new : (fs.setGroup idx g').blockGroups idx = g' := update_self _ _ _
  have len : ∀ g, ((fs.setGroup idx g').blockGroups g).blockBitmap.len = (fs.blockGroups g).blockBitmap.len :=
    update_same fs.blockGroups (·.blockBitmap.len) swap.len
  refine ⟨⟨h.pos, fun g lt => ?_, fun g lt => ?_, fun g lt => ?_, ?_⟩,
    ⟨rfl, rfl, rfl, rfl, len, ?_, ?_, ?_, ?_⟩, ?_⟩
  · by_cases same : g = idx
    · rw [same, new]
      exact swap.wf
    · rw [old g same]
      exact h.group g lt
  · rw [len]
    exact h.le g lt
  · rw [len]
    exact h.full g lt
  · simp only [len]
    exact h.total
  · exact update_same fs.blockGroups (·.inodeBitmap) swap.inodeBitmap
  · exact update_same fs.blockGroups (·.freeInodesCount) swap.freeInodesCount
  · exact update_same fs.blockGroups (·.dirsCount) swap.dirsCount
  · intro g le
    exact old g (by omega)
  · funext bid
    have mem := mem_group_iff h.pos (le_trans within (h.le idx lt)) idx start bid
    unfold setRange
    change ((fs.setGroup idx g').blockGroups (bid / fs.blocksPerGroup)).blockBitmap.bits _ = _
    by_cases same : bid / fs.blocksPerGroup = idx
    · rw [same, new, swap.bits]
      unfold setRange Ext2.used
      simp only [mem, same, true_and]
      rfl
    · rw [old _ same, if_neg fun inside => same (mem.mp inside).1]
      rfl

/-- What a group gains or loses, all groups together do. -/
theorem freeInGroups_setGroup (fs : Ext2) (lt : idx < fs.numGroups) (g' : GroupMetadata) :
    (fs.setGroup idx g').freeInGroups + (fs.blockGroups idx).blockBitmap.numFree =
      fs.freeInGroups + g'.blockBitmap.numFree := by
  unfold freeInGroups
  have mem : idx ∈ range fs.numGroups := mem_range.mpr lt
  have rest : ∑ g ∈ (range fs.numGroups).erase idx, ((fs.setGroup idx g').blockGroups g).blockBitmap.numFree =
      ∑ g ∈ (range fs.numGroups).erase idx, (fs.blockGroups g).blockBitmap.numFree := by
    refine sum_congr rfl fun g mem => ?_
    rw [setGroup]
    dsimp only
    rw [update_of_ne (ne_of_mem_erase mem)]
  have new : (fs.setGroup idx g').blockGroups idx = g' := update_self _ _ _
  change ∑ g ∈ range fs.numGroups, ((fs.setGroup idx g').blockGroups g).blockBitmap.numFree + _ = _
  rw [← add_sum_erase _ _ mem, ← add_sum_erase _ _ mem, new]
  omega

/-! ### Freeing -/

/-- The blocks of a range are there and in use. -/
def InUse (fs : Ext2) (start stop : Nat) : Prop :=
  ∀ bid, start ≤ bid → bid < stop → fs.HasBlock bid ∧ fs.used bid = true

theorem freeInGroups_lt (h : fs.Groups) : fs.freeInGroups < 2 ^ 32 :=
  lt_of_le_of_lt (sum_le_sum fun _ _ => countClear_le _ _) h.total

/-- One round of `free_blocks`, on a range in a group. -/
theorem freeGroup_ok (stop : Nat) (h : fs.WF) (lt : start < stop) (valid : start / fs.blocksPerGroup < fs.numGroups)
    (within : start % fs.blocksPerGroup + (stop - start) ≤ fs.blocksPerGroup)
    (freed : (fs.blockGroups (start / fs.blocksPerGroup)).freeBlocks (start % fs.blocksPerGroup)
      (start % fs.blocksPerGroup + (stop - start)) = .ok g') :
    fs.InUse start stop ∧ Changed false fs start stop
        { fs.setGroup (start / fs.blocksPerGroup) g' with freeBlocksCount := fs.freeBlocksCount + (stop - start) } ∧
      WF { fs.setGroup (start / fs.blocksPerGroup) g' with
        freeBlocksCount := fs.freeBlocksCount + (stop - start) } := by
  have wf := h.group _ valid
  obtain ⟨inside, set⟩ := freeBlocks_inv wf (Nat.lt_add_of_pos_right (by omega)) freed
  obtain ⟨_, eq, swap⟩ := freeBlocks_ok wf (Nat.lt_add_of_pos_right (by omega)) inside set
  cases eq.symm.trans freed
  have parts := div_add_mod start fs.blocksPerGroup
  rw [mul_comm] at parts
  have first : start / fs.blocksPerGroup * fs.blocksPerGroup + start % fs.blocksPerGroup = start := parts
  have last : start / fs.blocksPerGroup * fs.blocksPerGroup + (start % fs.blocksPerGroup + (stop - start)) = stop := by
    omega
  have changed := setGroup_changed h.toGroups valid swap inside
  rw [first, last] at changed
  have count := freeInGroups_setGroup fs valid g'
  have more : g'.blockBitmap.numFree =
      (fs.blockGroups (start / fs.blocksPerGroup)).blockBitmap.numFree + (stop - start) := by
    have := countClear_set_false set (fs.blockGroups (start / fs.blocksPerGroup)).blockBitmap.len
    rw [min_eq_left inside, Nat.add_sub_cancel_left] at this
    rw [IdAlloc.numFree, swap.len, swap.bits]
    exact this
  have groups : Groups { fs.setGroup (start / fs.blocksPerGroup) g' with
      freeBlocksCount := fs.freeBlocksCount + (stop - start) } :=
    ⟨changed.groups.pos, changed.groups.group, changed.groups.le, changed.groups.full, changed.groups.total⟩
  refine ⟨fun bid le lt' => ?_, ⟨groups, ?_, changed.used⟩, ⟨groups, ?_⟩⟩
  · obtain ⟨same, low, high⟩ :=
      (mem_group_iff h.pos within (start / fs.blocksPerGroup) (start % fs.blocksPerGroup) bid).mp
      (by omega)
    refine ⟨⟨same ▸ valid, ?_⟩, ?_⟩
    · rw [same]
      omega
    · rw [Ext2.used, same]
      exact set _ low high
  · obtain ⟨a, b, c, d, e, f, i, j, k⟩ := changed.alike
    exact ⟨a, b, c, d, e, f, i, j, k⟩
  · have := h.count
    change fs.freeBlocksCount + (stop - start) = (fs.setGroup (start / fs.blocksPerGroup) g').freeInGroups
    omega

/-- What `free_blocks` can do: it frees the range, or the part of it before a block that is not there. -/
theorem freeLoop_inv (h : fs.WF) {fuel : Nat} (enough : stop - start ≤ fuel) {result : Except Errno Unit}
    (freed : freeLoop fuel fs start stop = .ok (result, fs')) :
    ∃ mid, min start stop ≤ mid ∧ mid ≤ stop ∧ fs.InUse start mid ∧ Changed false fs start mid fs' ∧
      fs'.WF ∧
      (result = .ok () → mid = stop ∨ stop ≤ start) := by
  induction fuel generalizing fs start with
  | zero =>
    cases freed
    exact ⟨min start stop, le_rfl, min_le_right _ _, fun bid le lt => by omega, .refl h.toGroups (by omega), h,
      fun _ => .inr (by omega)⟩
  | succ fuel ih =>
    rw [freeLoop] at freed
    split at freed
    · next empty =>
      cases freed
      exact ⟨min start stop, le_rfl, min_le_right _ _, fun bid le lt => by omega,
        .refl h.toGroups (by omega), h, fun _ => .inr empty⟩
    · next lt =>
      dsimp only at freed
      split at freed
      · cases freed
        exact ⟨start, by omega, by omega, fun bid le lt => by omega, .refl h.toGroups le_rfl, h,
          fun eq => (by cases eq)⟩
      · next valid =>
        obtain ⟨_, -, freed⟩ := bind_ok.mp freed
        obtain ⟨g', eq, freed⟩ := bind_ok.mp freed
        have first := mod_lt start h.pos
        generalize size : min (stop - start) (fs.blocksPerGroup - start % fs.blocksPerGroup) = len at *
        have split : len = (start + len) - start := by omega
        rw [split] at eq
        obtain ⟨inUse, changed, wf⟩ := freeGroup_ok (start + len) h (by omega) (by omega) (by omega) eq
        rw [← split] at changed wf
        obtain ⟨mid, le, le', inUse', changed', wf', last⟩ := ih wf (by omega) freed
        refine ⟨mid, by omega, le', fun bid low high => ?_,
          changed.append changed' (by omega) (by omega), wf', fun ok => ?_⟩
        · by_cases before : bid < start + len
          · exact inUse bid low before
          · obtain ⟨there, set⟩ := inUse' bid (by omega) high
            rw [changed.used, setRange_of_not_mem (by omega)] at set
            exact ⟨(changed.alike.hasBlock bid).mp there, set⟩
        · rcases last ok with last | last
          · exact .inl last
          · exact .inl (by omega)

/-- Blocks in use that lie in one group can be freed there. -/
theorem freeGroup_of_inUse (len : Nat) (h : fs.WF) (pos : 0 < len)
    (within : start % fs.blocksPerGroup + len ≤ fs.blocksPerGroup)
    (inUse : fs.InUse start (start + len)) :
    ∃ g', (fs.blockGroups (start / fs.blocksPerGroup)).freeBlocks (start % fs.blocksPerGroup)
      (start % fs.blocksPerGroup + len) = .ok g' := by
  have parts := div_add_mod start fs.blocksPerGroup
  rw [mul_comm] at parts
  have inGroup : ∀ i, start % fs.blocksPerGroup ≤ i → i < start % fs.blocksPerGroup + len →
      i < (fs.blockGroups (start / fs.blocksPerGroup)).blockBitmap.len ∧
        (fs.blockGroups (start / fs.blocksPerGroup)).blockBitmap.bits i = true := by
    intro i low high
    have same := ((mem_group_iff h.pos within (start / fs.blocksPerGroup) (start % fs.blocksPerGroup)
      (start / fs.blocksPerGroup * fs.blocksPerGroup + i)).mp (by omega)).1
    have rest : (start / fs.blocksPerGroup * fs.blocksPerGroup + i) % fs.blocksPerGroup = i := by
      rw [mul_add_mod_self_right, mod_eq_of_lt (by omega)]
    obtain ⟨⟨-, inside⟩, set⟩ := inUse (start / fs.blocksPerGroup * fs.blocksPerGroup + i) (by omega) (by omega)
    unfold Ext2.used at set
    rw [same, rest] at inside set
    exact ⟨inside, set⟩
  have last := (inGroup (start % fs.blocksPerGroup + len - 1) (by omega) (by omega)).1
  obtain ⟨⟨valid, -⟩, -⟩ := inUse start le_rfl (by omega)
  obtain ⟨g', eq, -⟩ := freeBlocks_ok (h.group _ valid) (Nat.lt_add_of_pos_right pos) (by omega)
    fun i low high => (inGroup i low high).2
  exact ⟨g', eq⟩

/-- `free_blocks` frees a range of blocks in use. -/
theorem freeLoop_ok (h : fs.WF) {fuel : Nat} (enough : stop - start ≤ fuel) (inUse : fs.InUse start stop) :
    ∃ fs', freeLoop fuel fs start stop = .ok (.ok (), fs') := by
  induction fuel generalizing fs start with
  | zero => exact ⟨fs, rfl⟩
  | succ fuel ih =>
    rw [freeLoop]
    split
    · exact ⟨fs, rfl⟩
    · next lt =>
      obtain ⟨⟨valid, _⟩, -⟩ := inUse start le_rfl (by omega)
      dsimp only
      rw [if_neg (not_le.mpr valid)]
      have first := mod_lt start h.pos
      generalize size : min (stop - start) (fs.blocksPerGroup - start % fs.blocksPerGroup) = len
      obtain ⟨g', eq⟩ := freeGroup_of_inUse len h (by omega) (by omega) fun bid low high =>
        inUse bid low (by omega)
      have split : len = (start + len) - start := by omega
      obtain ⟨-, changed, wf⟩ := freeGroup_ok (start + len) h (by omega) valid (by omega) (split ▸ eq)
      rw [← split] at changed wf
      have room : fs.freeBlocksCount + len < 2 ^ 32 := lt_of_le_of_lt (le_of_eq wf.count) (freeInGroups_lt wf.toGroups)
      rw [require_of _ room, eq]
      refine ih wf (by omega) fun bid low high => ?_
      obtain ⟨there, set⟩ := inUse bid (by omega) high
      refine ⟨(changed.alike.hasBlock bid).mpr there, ?_⟩
      rw [changed.used, setRange_of_not_mem (by omega)]
      exact set

end Ext2

end OmegaOsx.Ext2
