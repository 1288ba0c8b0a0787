import OmegaOsx.Ext2.BlockLists

/-!
# The tree of block pointers

The pointers of an inode and its indirect blocks are a tree whose places are those of `BlockPtr`. `Linked` says
that pointers have been written into places that were free and nothing else of the tree has changed; it is what
`set_device_range` and `set_indirect_bids` do. Which slot `set_indirect_bids` writes depends on what it finds:
a pointer to a double indirect block, to a treble indirect one or to a first level below it counts as there
unless it is zero (`Tested`), and so has to be zero where the block is not.
-/

namespace OmegaOsx.Ext2

open PointerTree Place List Function BidPath IndirectBlockCache Set
open MlsDisk (ok_bind)

namespace IndirectBlockCache

variable (c : IndirectBlockCache)

theorem find_insert (bid : Nat) (block : Nat → Nat) : (c.insert bid block).find = update c.find bid block := by
  funext b
  by_cases same : b = bid
  · subst same
    simp [find, insert]
  · simp [find, insert, same]

theorem find_remove (bid : Nat) : (c.remove bid).find = update c.find bid (c.disk bid) := by
  funext b
  by_cases same : b = bid
  · subst same
    simp [find, remove]
  · simp [find, remove, same]

theorem find_writeBid (block idx bid : Nat) :
    (c.writeBid block idx bid).find = update c.find block (update (c.find block) idx bid) :=
  c.find_insert _ _

end IndirectBlockCache

variable {path : BidPath}

namespace BidPath

/-- The blocks of the file from a path on. -/
def blocks : BidPath → Nat → List Place
  | _, 0 => []
  | path, n + 1 => .block path :: (path.skip 1).blocks n

theorem skip_zero (path : BidPath) : path.skip 0 = path := by cases path <;> rfl

theorem skip_skip (path : BidPath) (j k : Nat) : (path.skip j).skip k = path.skip (j + k) := by
  cases path <;> simp [skip, add_assoc]

theorem mem_blocks {n : Nat} {p : Place} : p ∈ path.blocks n ↔ ∃ j < n, p = .block (path.skip j) := by
  induction n generalizing path with
  | zero => simp [blocks]
  | succ n ih =>
    rw [blocks, mem_cons, ih]
    constructor
    · rintro (rfl | ⟨j, lt, rfl⟩)
      · exact ⟨0, Nat.succ_pos n, by rw [skip_zero]⟩
      · exact ⟨1 + j, by omega, by rw [skip_skip]⟩
    · rintro ⟨j, lt, rfl⟩
      cases j with
      | zero => exact .inl (by rw [skip_zero])
      | succ j => exact .inr ⟨j, by omega, by rw [skip_skip, add_comm]⟩

theorem blocks_append (path : BidPath) (m n : Nat) : path.blocks (m + n) = path.blocks m ++ (path.skip m).blocks n := by
  induction m generalizing path with
  | zero => rw [zero_add, skip_zero, blocks, nil_append]
  | succ m ih => rw [add_right_comm, blocks, blocks, ih, skip_skip, add_comm 1 m, cons_append]

theorem parent_skip (path : BidPath) (k : Nat) : (block (path.skip k)).parent = (block path).parent := by
  cases path <;> rfl

theorem cntToNextIndirect_skip (path : BidPath) (k : Nat) :
    (path.skip k).cntToNextIndirect = path.cntToNextIndirect - k := by
  cases path <;> simp [skip, cntToNextIndirect, Nat.sub_sub]

theorem Valid.cntToNextIndirect_pos (h : path.Valid) : 0 < path.cntToNextIndirect := by
  cases path with
  | direct idx => exact Nat.sub_pos_of_lt h
  | indirect idx => exact Nat.sub_pos_of_lt h
  | dbIndirect lvl1 lvl2 => exact Nat.sub_pos_of_lt h.2
  | tbIndirect lvl1 lvl2 lvl3 => exact Nat.sub_pos_of_lt h.2.2

/-- The path some blocks before, in the same last block of pointers. -/
theorem Valid.exists_back (h : path.Valid) (k : Nat) (le : k ≤ path.lastLvlIdx) :
    ∃ path' : BidPath, path'.Valid ∧ path'.skip k = path := by
  cases path with
  | direct idx => exact ⟨direct (idx - k), lt_of_le_of_lt (Nat.sub_le _ _) h,
    congrArg direct (Nat.sub_add_cancel le)⟩
  | indirect idx =>
    exact ⟨indirect (idx - k), lt_of_le_of_lt (Nat.sub_le _ _) h, congrArg indirect (Nat.sub_add_cancel le)⟩
  | dbIndirect lvl1 lvl2 =>
    exact ⟨dbIndirect lvl1 (lvl2 - k), ⟨h.1, lt_of_le_of_lt (Nat.sub_le _ _) h.2⟩,
      congrArg (dbIndirect lvl1) (Nat.sub_add_cancel le)⟩
  | tbIndirect lvl1 lvl2 lvl3 =>
    exact ⟨tbIndirect lvl1 lvl2 (lvl3 - k), ⟨h.1, h.2.1, lt_of_le_of_lt (Nat.sub_le _ _) h.2.2⟩,
      congrArg (tbIndirect lvl1 lvl2) (Nat.sub_add_cancel le)⟩

theorem cntToNextIndirect_of_parent {q : Place} (h : (block path).parent = some q) :
    path.cntToNextIndirect = MAX_INDIRECT_BLOCKS - path.lastLvlIdx := by
  cases path with
  | direct => cases h
  | _ => rfl

end BidPath

/-- The pointers that `set_indirect_bids` tests. -/
def Place.Tested : Place → Prop
  | dbIndirect => True
  | tbIndirect => True
  | tbLvl1 _ => True
  | _ => False

namespace InodeImpl

variable {s s' s'' : InodeImpl} {used clean : Set Place} {p : Place} {bid : Nat} {ps ps' : List Place}
  {bids bids' : List Nat}

def store (s : InodeImpl) : Store Nat Nat := ⟨s.blockPtrs, s.indirectBlocks.find⟩

/-- The pointer at a place. -/
def locate (s : InodeImpl) (p : Place) : Nat := p.locate s.store

theorem located (s : InodeImpl) : Located shape s.store s.locate := Place.located s.store

abbrev HasTree (s : InodeImpl) (used clean : Set Place) : Prop := Tree Place.shape 0 s.locate used clean

/-- Writes the pointer at a place. -/
def setAt (s : InodeImpl) (p : Place) (bid : Nat) : InodeImpl :=
  match p.parent with
  | none => s.setPtr p.slot bid
  | some q => { s with indirectBlocks := s.indirectBlocks.writeBid (s.locate q) p.slot bid }

/-- A new indirect block. -/
def zeroed (s : InodeImpl) (bid : Nat) : InodeImpl :=
  { s with indirectBlocks := s.indirectBlocks.insert bid fun _ => 0 }

theorem store_setAt (s : InodeImpl) (p : Place) (bid : Nat) :
    (s.setAt p bid).store = s.store.set ((shape.parent p).map s.locate) (shape.slot p) bid := by
  change _ = s.store.set (p.parent.map s.locate) p.slot bid
  unfold setAt
  cases p.parent with
  | none => rfl
  | some q => simp [store, Store.set, find_writeBid]

theorem store_zeroed (s : InodeImpl) (bid : Nat) : (s.zeroed bid).store = s.store.setBlock bid fun _ => 0 := by
  simp [zeroed, store, Store.setBlock, find_insert]

/-- The states differ in nothing but the pointers. -/
structure SameDesc (s s' : InodeImpl) : Prop where
  fs : s'.fs = s.fs
  groupIdx : s'.groupIdx = s.groupIdx
  size : s'.size = s.size
  blocksCount : s'.blocksCount = s.blocksCount
  lastAlloc : s'.lastAllocDeviceBid = s.lastAllocDeviceBid

theorem SameDesc.refl (s : InodeImpl) : SameDesc s s := ⟨rfl, rfl, rfl, rfl, rfl⟩

theorem SameDesc.trans (h : SameDesc s s') (h' : SameDesc s' s'') : SameDesc s s'' :=
  ⟨h'.fs.trans h.fs, h'.groupIdx.trans h.groupIdx, h'.size.trans h.size, h'.blocksCount.trans h.blocksCount,
    h'.lastAlloc.trans h.lastAlloc⟩

theorem sameDesc_setAt (s : InodeImpl) (p : Place) (bid : Nat) : SameDesc s (s.setAt p bid) := by
  unfold setAt
  split <;> exact ⟨rfl, rfl, rfl, rfl, rfl⟩

theorem sameDesc_zeroed (s : InodeImpl) (bid : Nat) : SameDesc s (s.zeroed bid) := ⟨rfl, rfl, rfl, rfl, rfl⟩

/-! ### Linking -/

/-- Blocks that are none of the tree's. -/
structure Fresh (s : InodeImpl) (used : Set Place) (bids : List Nat) : Prop where
  nodup : bids.Nodup
  ne : ∀ bid ∈ bids, bid ≠ 0
  apart : ∀ bid ∈ bids, ∀ q ∈ used, s.locate q ≠ bid

/-- Places that were free hold the pointers of the list. -/
structure Linked (s : InodeImpl) (used clean : Set Place) (ps : List Place) (bids : List Nat)
    (s' : InodeImpl) : Prop where
  tree : s'.HasTree (used ∪ {p | p ∈ ps}) clean
  same : ∀ q ∈ used, s'.locate q = s.locate q
  new : ps.map s'.locate = bids
  desc : SameDesc s s'

theorem Linked.nil (tree : s.HasTree used clean) : Linked s used clean [] [] s where
  tree := by
    have : used ∪ {p | p ∈ []} = used := by simp
    rwa [this]
  same _ _ := rfl
  new := rfl
  desc := .refl s

theorem Linked.append (h : Linked s used clean ps bids s')
    (h' : Linked s' (used ∪ {p | p ∈ ps}) clean ps' bids' s'') :
    Linked s used clean (ps ++ ps') (bids ++ bids') s'' where
  tree := by
    have : used ∪ {p | p ∈ ps ++ ps'} = used ∪ {p | p ∈ ps} ∪ {p | p ∈ ps'} := by
      ext p
      simp [or_assoc]
    rw [this]
    exact h'.tree
  same q mem := (h'.same q (.inl mem)).trans (h.same q mem)
  new := by
    rw [map_append, h'.new, ← h.new]
    exact congrArg (· ++ bids') (map_congr_left fun p mem => h'.same p (.inr mem))
  desc := h.desc.trans h'.desc

theorem Fresh.head (h : Fresh s used (bids ++ bids')) : Fresh s used bids :=
  ⟨(nodup_append.mp h.nodup).1, fun b mem => h.ne b (mem_append_left _ mem),
    fun b mem => h.apart b (mem_append_left _ mem)⟩

theorem Fresh.tail (h : Fresh s used (bids ++ bids')) (linked : Linked s used clean ps bids s') :
    Fresh s' (used ∪ {p | p ∈ ps}) bids' := by
  obtain ⟨-, nodup, apart⟩ := nodup_append.mp h.nodup
  refine ⟨nodup, fun b mem => h.ne b (mem_append_right _ mem), fun b mem q used => ?_⟩
  rcases used with old | new
  · rw [linked.same q old]
    exact h.apart b (mem_append_right _ mem) q old
  · have : s'.locate q ∈ bids := linked.new ▸ mem_map_of_mem new
    exact apart _ this b mem

theorem union_singleton (used : Set Place) (p : Place) : used ∪ {q | q ∈ [p]} = insert p used := by
  ext q
  simp [or_comm]

section

variable (tree : s.HasTree used clean)

include tree

theorem setAt_linked (valid : p.Valid) (free : p ∉ used) (attached : Attached shape used p)
    (fresh : Fresh s used [bid])
    (children : ∀ c ∈ clean, c.Valid → c.parent = some p → s.indirectBlocks.find bid c.slot = 0) :
    Linked s used clean [p] [bid] (s.setAt p bid) := by
  have new := (s.setAt p bid).located
  rw [store_setAt] at new
  obtain ⟨tree', same, self⟩ := tree.attach s.located new valid free attached (fresh.ne bid mem_cons_self)
    (fresh.apart bid mem_cons_self) children
  exact ⟨by rwa [union_singleton], same, by simp [self], sameDesc_setAt s p bid⟩

theorem setAt_block_linked (valid : path.Valid) (free : .block path ∉ used)
    (attached : Attached shape used (.block path)) (fresh : Fresh s used [bid]) :
    Linked s used clean [.block path] [bid] (s.setAt (.block path) bid) := by
  refine setAt_linked tree valid free attached fresh fun c _ _ below => ?_
  unfold parent at below
  split at below <;> cases below

theorem zeroed_tree (fresh : Fresh s used [bid]) :
    (s.zeroed bid).HasTree used clean ∧ ∀ q, Attached shape used q → (s.zeroed bid).locate q = s.locate q := by
  have new := (s.zeroed bid).located
  rw [store_zeroed] at new
  exact tree.setBlock s.located new (fresh.apart bid mem_cons_self)

/-- An indirect block is linked, behind a new zeroed block. -/
theorem zeroed_setAt_linked (valid : p.Valid) (free : p ∉ used) (attached : Attached shape used p)
    (fresh : Fresh s used [bid]) : Linked s used clean [p] [bid] ((s.zeroed bid).setAt p bid) := by
  obtain ⟨tree', same⟩ := zeroed_tree tree fresh
  have fresh' : Fresh (s.zeroed bid) used [bid] :=
    ⟨fresh.nodup, fresh.ne, fun b mem q used => same q (tree.closed q used) ▸ fresh.apart b mem q used⟩
  have linked := setAt_linked tree' valid free attached fresh' fun c _ _ _ => by
    simp [zeroed, find_insert]
  exact ⟨linked.tree, fun q used => (linked.same q used).trans (same q (tree.closed q used)), linked.new,
    (sameDesc_zeroed s bid).trans linked.desc⟩

end

/-! ### Setting the blocks of a range -/

variable {n idx start stop lvl1 : Nat} {q : Place}

/-- The rest of a range, after its first block is linked. -/
theorem Linked.cons_blocks (first : Linked s used clean [.block path] [bid] s')
    (rest : Linked s' (used ∪ {p | p ∈ [block path]}) clean ((path.skip 1).blocks n) (range' (bid + 1) n) s'') :
    Linked s used clean (path.blocks (n + 1)) (range' bid (n + 1)) s'' :=
  first.append rest

theorem blocks_not_mem (free : ∀ p ∈ path.blocks (n + 1), p ∉ used) :
    ∀ p ∈ (path.skip 1).blocks n, p ∉ used ∪ {p | p ∈ [block path]} := by
  rintro p mem (old | new)
  · exact free p (mem_cons_of_mem _ mem) old
  obtain ⟨j, -, rfl⟩ := mem_blocks.mp mem
  have same := congrArg (fun p => p.first) (mem_singleton.mp new)
  simp only [first, firstPath, bid_skip] at same
  omega

theorem setDirects_linked (tree : s.HasTree used clean) (le : idx + n ≤ 12)
    (free : ∀ p ∈ (direct idx).blocks n, p ∉ used) (fresh : Fresh s used (range' bid n)) :
    ∃ ptrs, setDirects n s.blockPtrs idx bid = .ok ptrs ∧
      Linked s used clean ((direct idx).blocks n) (range' bid n) { s with blockPtrs := ptrs } := by
  induction n generalizing s used idx bid with
  | zero => exact ⟨s.blockPtrs, rfl, .nil tree⟩
  | succ n ih =>
    have inside : idx < MAX_DIRECT_BLOCKS := by
      change idx < 12
      omega
    rw [setDirects, require_of _ inside]
    have fresh' : Fresh s used ([bid] ++ range' (bid + 1) n) := fresh
    have valid : (direct idx).Valid := inside
    have first := setAt_block_linked tree valid (free _ mem_cons_self) (fun q eq => by cases eq) fresh'.head
    obtain ⟨ptrs, eq, rest⟩ := ih first.tree (by omega) (blocks_not_mem free) (fresh'.tail first)
    exact ⟨ptrs, eq, first.cons_blocks rest⟩

theorem writeBids_linked (tree : s.HasTree used clean) (parent : (block path).parent = some q)
    (mem : q ∈ used) (le : n ≤ path.cntToNextIndirect) (valid : ∀ p ∈ path.blocks n, p.Valid)
    (free : ∀ p ∈ path.blocks n, p ∉ used)
    (fresh : Fresh s used (range' bid n)) :
    ∃ c, writeBids n s.indirectBlocks (s.locate q) path.lastLvlIdx bid = (.ok (), c) ∧
      Linked s used clean (path.blocks n) (range' bid n) { s with indirectBlocks := c } := by
  induction n generalizing s used path bid with
  | zero => exact ⟨s.indirectBlocks, rfl, .nil tree⟩
  | succ n ih =>
    have cnt := cntToNextIndirect_of_parent parent
    rw [writeBids, if_neg (by omega)]
    have fresh' : Fresh s used ([bid] ++ range' (bid + 1) n) := fresh
    have attached : Attached shape used (.block path) := fun r eq => by
      cases parent.symm.trans eq
      exact mem
    have first := setAt_block_linked tree (valid _ mem_cons_self) (free _ mem_cons_self) attached fresh'.head
    have state : s.setAt (.block path) bid =
        { s with indirectBlocks := s.indirectBlocks.writeBid (s.locate q) path.lastLvlIdx bid } := by
      unfold setAt
      rw [parent]
      rfl
    obtain ⟨c, eq, rest⟩ := ih first.tree ((path.parent_skip 1).trans parent) (.inl mem)
      (by rw [cntToNextIndirect_skip]; omega) (fun p mem => valid p (mem_cons_of_mem _ mem))
      (blocks_not_mem free) (fresh'.tail first)
    rw [first.same q mem, lastLvlIdx_skip, state] at eq
    rw [state] at rest first
    exact ⟨c, eq, first.cons_blocks rest⟩

theorem setBids_eq {block : Nat} {c : IndirectBlockCache}
    (eq : writeBids (stop - start) s.indirectBlocks block idx start = (.ok (), c)) :
    s.setBids block idx start stop = (.ok (), { s with indirectBlocks := c }) := by
  unfold setBids
  rw [eq]

/-- `set_device_range` on a range that ends with its last block of pointers. -/
theorem setDeviceRange_linked (tree : s.HasTree used clean) (valid : path.Valid)
    (le : stop - start ≤ path.cntToNextIndirect) (attached : Attached shape used (.block path))
    (free : ∀ p ∈ path.blocks (stop - start), p ∉ used) (fresh : Fresh s used (range' start (stop - start))) :
    ∃ s', s.setDeviceRange path.bid start stop = .ok (.ok (), s') ∧
      Linked s used clean (path.blocks (stop - start)) (range' start (stop - start)) s' := by
  have valids : ∀ p ∈ path.blocks (stop - start), p.Valid := by
    intro p mem
    obtain ⟨j, lt, rfl⟩ := mem_blocks.mp mem
    exact valid.skip (by omega)
  unfold setDeviceRange
  rw [ofBid_of_valid valid, ok_bind]
  -- The assertions hold, since all blocks on the path are in the tree.
  cases path with
  | direct idx =>
    have inside : idx < 12 := valid
    have cnt : stop - start ≤ 12 - idx := le
    obtain ⟨ptrs, eq, linked⟩ := setDirects_linked tree (by omega) free fresh
    dsimp only
    rw [eq]
    exact ⟨_, rfl, linked⟩
  | indirect idx =>
    have mem := attached _ rfl
    obtain ⟨c, eq, linked⟩ := writeBids_linked tree rfl mem le valids free fresh
    have ne : s.blockPtrs INDIRECT ≠ 0 := tree.ne _ mem
    dsimp only
    rw [require_of _ ne, ok_bind]
    exact ⟨_, congrArg pure (setBids_eq eq), linked⟩
  | dbIndirect lvl1 lvl2 =>
    have mem := attached _ rfl
    obtain ⟨c, eq, linked⟩ := writeBids_linked tree rfl mem le valids free fresh
    have ne : s.blockPtrs DB_INDIRECT ≠ 0 := tree.ne _ (tree.closed _ mem _ rfl)
    have ne' : s.indirectBlocks.find (s.blockPtrs DB_INDIRECT) lvl1 ≠ 0 := tree.ne _ mem
    dsimp only
    rw [require_of _ ne, ok_bind, require_of _ ne', ok_bind]
    exact ⟨_, congrArg pure (setBids_eq eq), linked⟩
  | tbIndirect lvl1 lvl2 lvl3 =>
    have mem := attached _ rfl
    have mem' := tree.closed _ mem _ rfl
    obtain ⟨c, eq, linked⟩ := writeBids_linked tree rfl mem le valids free fresh
    have ne : s.blockPtrs TB_INDIRECT ≠ 0 := tree.ne _ (tree.closed _ mem' _ rfl)
    have ne' : s.indirectBlocks.find (s.blockPtrs TB_INDIRECT) lvl1 ≠ 0 := tree.ne _ mem'
    have ne'' : s.indirectBlocks.find (s.indirectBlocks.find (s.blockPtrs TB_INDIRECT) lvl1) lvl2 ≠ 0 := tree.ne _ mem
    dsimp only
    rw [require_of _ ne, ok_bind, require_of _ ne', ok_bind, require_of _ ne'', ok_bind]
    exact ⟨_, congrArg pure (setBids_eq eq), linked⟩

/-! ### Setting the indirect blocks -/

/-- The place that a round of `set_indirect_bids` writes. -/
def nextPlace (s : InodeImpl) : BidPath → Place
  | .direct idx => .block (.direct idx)
  | .indirect _ => .indirect
  | .dbIndirect lvl1 _ => if s.locate .dbIndirect = 0 then .dbIndirect else .dbLvl1 lvl1
  | .tbIndirect lvl1 lvl2 _ =>
    if s.locate .tbIndirect = 0 then .tbIndirect
    else if s.locate (.tbLvl1 lvl1) = 0 then .tbLvl1 lvl1
    else .tbLvl2 lvl1 lvl2

theorem linkIndirectBid_eq (s : InodeImpl) (zero : path.lastLvlIdx = 0) (some : path.required ≠ []) (bid : Nat) :
    s.linkIndirectBid path bid = .ok (s.setAt (s.nextPlace path) bid) := by
  cases path with
  | direct idx => exact absurd rfl some
  | indirect idx =>
    obtain rfl : idx = 0 := zero
    rfl
  | dbIndirect lvl1 lvl2 =>
    obtain rfl : lvl2 = 0 := zero
    rw [linkIndirectBid, require_of _ rfl, nextPlace]
    change Except.ok (if s.locate .dbIndirect = 0 then _ else _) = _
    by_cases none : s.locate .dbIndirect = 0
    · rw [if_pos none, if_pos none]
      rfl
    · rw [if_neg none, if_neg none]
      rfl
  | tbIndirect lvl1 lvl2 lvl3 =>
    obtain rfl : lvl3 = 0 := zero
    rw [linkIndirectBid, require_of _ rfl, nextPlace]
    change Except.ok (if s.locate .tbIndirect = 0 then _ else if s.locate (.tbLvl1 lvl1) = 0 then _ else _) = _
    by_cases none : s.locate .tbIndirect = 0
    · rw [if_pos none, if_pos none]
      rfl
    rw [if_neg none, if_neg none]
    by_cases none' : s.locate (.tbLvl1 lvl1) = 0
    · rw [if_pos none', if_pos none']
      rfl
    · rw [if_neg none', if_neg none']
      rfl

/-- One round, and the rest of the loop after it. -/
theorem setIndirectLoop_cons (zero : path.lastLvlIdx = 0) (some : path.required ≠ []) (tree : s.HasTree used clean)
    (next : (s.zeroed bid).nextPlace path = p) (valid : p.Valid) (free : p ∉ used)
    (attached : Attached shape used p) (fresh : Fresh s used ([bid] ++ bids))
    (rest : ∀ s', s'.HasTree (insert p used) clean → Fresh s' (insert p used) bids →
      ∃ s'', setIndirectLoop path s' bids = .ok s'' ∧ Linked s' (insert p used) clean ps bids s'') :
    ∃ s', setIndirectLoop path s (bid :: bids) = .ok s' ∧ Linked s used clean ([p] ++ ps) ([bid] ++ bids) s' := by
  have first := zeroed_setAt_linked tree valid free attached fresh.head
  have tree' := first.tree
  have fresh' := fresh.tail first
  rw [union_singleton] at tree' fresh'
  obtain ⟨s', eq, linked⟩ := rest _ tree' fresh'
  refine ⟨s', ?_, first.append (by rwa [union_singleton])⟩
  have step := (s.zeroed bid).linkIndirectBid_eq zero some bid
  rw [next] at step
  change ((s.zeroed bid).linkIndirectBid path bid >>= fun s => setIndirectLoop path s bids) = _
  rw [step, ok_bind, eq]

section

variable (tree : s.HasTree used clean) (fresh : Fresh s used ([bid] ++ bids))
include tree fresh

theorem zeroed_locate_ne (mem : p ∈ used) : (s.zeroed bid).locate p ≠ 0 := by
  rw [(zeroed_tree tree fresh.head).2 p (tree.closed p mem)]
  exact tree.ne p mem

theorem zeroed_locate_zero (tested : p ∈ clean)
    (valid : p.Valid) (free : p ∉ used) (attached : Attached shape used p) : (s.zeroed bid).locate p = 0 := by
  rw [(zeroed_tree tree fresh.head).2 p attached]
  exact tree.clean p tested valid free attached

end

theorem setIndirectLoop_last (zero : path.lastLvlIdx = 0) (some : path.required ≠ []) (tree : s.HasTree used clean)
    (next : (s.zeroed bid).nextPlace path = p) (valid : p.Valid) (free : p ∉ used)
    (attached : Attached shape used p) (fresh : Fresh s used ([bid] ++ [])) :
    ∃ s', setIndirectLoop path s [bid] = .ok s' ∧ Linked s used clean [p] [bid] s' :=
  setIndirectLoop_cons zero some tree next valid free attached fresh fun s' tree' _ => ⟨s', rfl, .nil tree'⟩

theorem not_mem_owned_first (p : Place) : p ∉ owned p.first := fun mem => absurd mem.2 (lt_irrefl _)

theorem attached_root (used : Set Place) (root : p.parent = none) : Attached shape used p := fun q eq => by
  cases root.symm.trans eq

theorem attached_of_mem (parent : p.parent = some q) (mem : q ∈ used) : Attached shape used p :=
  fun r eq => by
    cases parent.symm.trans eq
    exact mem

theorem setDbIndirect_linked (valid : lvl1 < 1024) (tree : s.HasTree (owned (dbIndirect lvl1 0).bid) clean)
    (tested : ∀ p ∈ (dbIndirect lvl1 0).required, p.Tested → p ∈ clean)
    (len : bids.length = (dbIndirect lvl1 0).required.length)
    (fresh : Fresh s (owned (dbIndirect lvl1 0).bid) bids) :
    ∃ s', setIndirectLoop (.dbIndirect lvl1 0) s bids = .ok s' ∧
      Linked s (owned (dbIndirect lvl1 0).bid) clean (dbIndirect lvl1 0).required bids s' := by
  cases lvl1 with
  | zero =>
    obtain ⟨first, second, rfl⟩ := length_eq_two.mp len
    have free : Place.dbIndirect ∉ owned (dbIndirect 0 0).bid := not_mem_owned_first _
    refine setIndirectLoop_cons rfl (by simp [required]) tree ?_ trivial free (attached_root _ rfl)
      fresh fun s' tree' fresh' => ?_
    · exact if_pos (zeroed_locate_zero tree fresh (tested .dbIndirect (by simp [required]) trivial) trivial free
        (attached_root _ rfl))
    refine setIndirectLoop_last rfl (by simp [required]) tree' ?_ valid ?_ ?_ fresh'
    · exact if_neg (zeroed_locate_ne tree' fresh' (mem_insert _ _))
    · rintro (eq | mem)
      · cases eq
      · exact not_mem_owned_first (.dbLvl1 0) mem
    · exact attached_of_mem rfl (mem_insert _ _)
  | succ lvl1 =>
    obtain ⟨first, rfl⟩ := length_eq_one_iff.mp len
    have mem : Place.dbIndirect ∈ owned (dbIndirect (lvl1 + 1) 0).bid := by
      refine ⟨trivial, ?_⟩
      simp only [Place.first, firstPath, bid]
      omega
    exact setIndirectLoop_last rfl (by simp [required]) tree (if_neg (zeroed_locate_ne tree fresh mem)) valid
      (not_mem_owned_first (.dbLvl1 (lvl1 + 1))) (attached_of_mem rfl mem) fresh

/-- The first levels of a treble indirect block, once its top is there. -/
theorem setTbLevels_linked {first second : Nat} (valid : lvl1 < 1024) (tree : s.HasTree used clean)
    (top : .tbIndirect ∈ used) (free : .tbLvl1 lvl1 ∉ used) (free' : .tbLvl2 lvl1 0 ∉ used)
    (tested : .tbLvl1 lvl1 ∈ clean)
    (fresh : Fresh s used [first, second]) :
    ∃ s', setIndirectLoop (.tbIndirect lvl1 0 0) s [first, second] = .ok s' ∧
      Linked s used clean [.tbLvl1 lvl1, .tbLvl2 lvl1 0] [first, second] s' := by
  have some : (tbIndirect lvl1 0 0).required ≠ [] := by cases lvl1 <;> simp [required]
  have attached : Attached shape used (.tbLvl1 lvl1) := attached_of_mem rfl top
  refine setIndirectLoop_cons rfl some tree ?_ valid free attached fresh fun s' tree' fresh' => ?_
  · rw [nextPlace, if_neg (zeroed_locate_ne tree fresh top),
      if_pos (zeroed_locate_zero tree fresh tested valid free attached)]
  refine setIndirectLoop_last rfl some tree' ?_ ⟨valid, by omega⟩ ?_ ?_ fresh'
  · rw [nextPlace, if_neg (zeroed_locate_ne tree' fresh' (mem_insert_of_mem _ top)),
      if_neg (zeroed_locate_ne tree' fresh' (mem_insert _ _))]
  · rintro (eq | mem)
    · cases eq
    · exact free' mem
  · exact attached_of_mem rfl (mem_insert _ _)

theorem setTbIndirect_linked {lvl2 : Nat} (valid : lvl1 < 1024 ∧ lvl2 < 1024)
    (tree : s.HasTree (owned (tbIndirect lvl1 lvl2 0).bid) clean)
    (tested : ∀ p ∈ (tbIndirect lvl1 lvl2 0).required, p.Tested → p ∈ clean)
    (len : bids.length = (tbIndirect lvl1 lvl2 0).required.length)
    (fresh : Fresh s (owned (tbIndirect lvl1 lvl2 0).bid) bids) :
    ∃ s', setIndirectLoop (.tbIndirect lvl1 lvl2 0) s bids = .ok s' ∧
      Linked s (owned (tbIndirect lvl1 lvl2 0).bid) clean (tbIndirect lvl1 lvl2 0).required bids s' := by
  cases lvl2 with
  | zero =>
    have lower : Place.tbLvl1 lvl1 ∉ owned (tbIndirect lvl1 0 0).bid := not_mem_owned_first _
    have lower' : tbLvl2 lvl1 0 ∉ owned (tbIndirect lvl1 0 0).bid := not_mem_owned_first _
    cases lvl1 with
    | zero =>
      obtain ⟨first, second, third, rfl⟩ := length_eq_three.mp len
      have free : Place.tbIndirect ∉ owned (tbIndirect 0 0 0).bid := not_mem_owned_first _
      refine setIndirectLoop_cons rfl (by simp [required]) tree ?_ trivial free (attached_root _ rfl)
        fresh fun s' tree' fresh' => ?_
      · exact if_pos (zeroed_locate_zero tree fresh (tested .tbIndirect (by simp [required]) trivial) trivial free
          (attached_root _ rfl))
      refine setTbLevels_linked valid.1 tree' (mem_insert _ _) ?_ ?_
        (tested (.tbLvl1 0) (by simp [required]) trivial) fresh'
      · rintro (eq | mem)
        · cases eq
        · exact lower mem
      · rintro (eq | mem)
        · cases eq
        · exact lower' mem
    | succ lvl1 =>
      obtain ⟨first, second, rfl⟩ := length_eq_two.mp len
      refine setTbLevels_linked valid.1 tree ⟨trivial, ?_⟩ lower lower'
        (tested (.tbLvl1 (lvl1 + 1)) (by simp [required]) trivial) fresh
      simp only [Place.first, firstPath, bid]
      omega
  | succ lvl2 =>
    rw [required] at len ⊢
    obtain ⟨first, rfl⟩ := length_eq_one_iff.mp len
    have mem : Place.tbLvl1 lvl1 ∈ owned (tbIndirect lvl1 (lvl2 + 1) 0).bid := by
      refine ⟨valid.1, ?_⟩
      simp only [Place.first, firstPath, bid]
      omega
    refine setIndirectLoop_last rfl (by rw [required]; simp) tree ?_ valid
      (not_mem_owned_first (.tbLvl2 lvl1 (lvl2 + 1))) (attached_of_mem rfl mem) fresh
    rw [nextPlace, if_neg (zeroed_locate_ne tree fresh (tree.closed _ mem _ rfl)),
      if_neg (zeroed_locate_ne tree fresh mem)]

theorem lastLvlIdx_of_required (some : path.required ≠ []) : path.lastLvlIdx = 0 := by
  unfold required at some
  split at some <;> first | rfl | exact absurd rfl some

/-- `set_indirect_bids` gives the first block of a block of pointers the indirect blocks it needs. -/
theorem setIndirectBids_linked (valid : path.Valid) (some : path.required ≠ [])
    (tree : s.HasTree (owned path.bid) clean) (tested : ∀ p ∈ path.required, p.Tested → p ∈ clean)
    (len : bids.length = path.required.length) (fresh : Fresh s (owned path.bid) bids) :
    ∃ s', s.setIndirectBids path.bid bids = .ok s' ∧ Linked s (owned path.bid) clean path.required bids s' := by
  have few : 1 ≤ bids.length ∧ bids.length ≤ 3 := by
    rw [len]
    refine ⟨length_pos_iff.mpr some, ?_⟩
    unfold required
    split <;> simp
  unfold setIndirectBids
  rw [require_of _ few, ofBid_of_valid valid]
  have zero := lastLvlIdx_of_required some
  cases path with
  | direct idx => exact absurd rfl some
  | indirect idx =>
    obtain rfl : idx = 0 := zero
    obtain ⟨first, rfl⟩ := length_eq_one_iff.mp len
    exact setIndirectLoop_last rfl some tree rfl trivial (not_mem_owned_first .indirect) (attached_root _ rfl) fresh
  | dbIndirect lvl1 lvl2 =>
    obtain rfl : lvl2 = 0 := zero
    exact setDbIndirect_linked valid.1 tree tested len fresh
  | tbIndirect lvl1 lvl2 lvl3 =>
    obtain rfl : lvl3 = 0 := zero
    exact setTbIndirect_linked ⟨valid.1, valid.2.1⟩ tree tested len fresh

end InodeImpl

end OmegaOsx.Ext2
