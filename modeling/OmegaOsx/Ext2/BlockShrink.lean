import OmegaOsx.Ext2.BlockTree

/-!
# Shrinking

`Mapped` ties the tree of an inode to the bitmaps: the blocks in use are those of others and those the tree
leads to, and no block is both. Shrinking keeps it. A range of blocks is read and freed first, then the indirect
blocks that only the range needed, from the lowest one on. The pointers to what is freed stay as they are; only
those to a double and to a treble indirect block are cleared, and the one to an indirect block is set to 12.
-/

namespace OmegaOsx.Ext2

open PointerTree BidPath Place List Nat
open MlsDisk (ok_bind)

/-- The pointers of the inode that are cleared with their blocks. -/
def Place.cleared : Set Place := {.dbIndirect, .tbIndirect}

variable {block : Option (Nat → Nat)} {ps : List Place} {stop start : Nat}

namespace InodeImpl

variable {s s' s'' : InodeImpl} {others : Nat → Bool} {used clean : Set Place} {p : Place} {bid : Nat}
  {bids bids' : List Nat} {path : BidPath}

/-- The blocks in use are those of others and those the places of the tree lead to. -/
structure Mapped (s : InodeImpl) (others : Nat → Bool) (used clean : Set Place) : Prop where
  tree : s.HasTree used clean
  wf : s.fs.WF
  reserved : others 0 = true
  there : ∀ p ∈ used, s.fs.HasBlock (s.locate p)
  apart : ∀ p ∈ used, others (s.locate p) = false
  inUse : ∀ bid, s.fs.used bid = true ↔ others bid = true ∨ ∃ p ∈ used, s.locate p = bid

theorem Mapped.taken (h : Mapped s others used clean) (mem : p ∈ used) :
    s.fs.HasBlock (s.locate p) ∧ s.fs.used (s.locate p) = true :=
  ⟨h.there p mem, (h.inUse _).mpr (.inr ⟨p, mem, rfl⟩)⟩

/-- Everything but the pointers and the blocks in use is as it was. -/
structure SameSize (s s' : InodeImpl) : Prop where
  groupIdx : s'.groupIdx = s.groupIdx
  size : s'.size = s.size
  alike : Ext2.Alike s.fs s'.fs

theorem SameSize.refl (s : InodeImpl) : SameSize s s := ⟨rfl, rfl, .refl s.fs⟩

theorem SameSize.trans (h : SameSize s s') (h' : SameSize s' s'') : SameSize s s'' :=
  ⟨h'.groupIdx.trans h.groupIdx, h'.size.trans h.size, h.alike.trans h'.alike⟩

/-- Blocks have been freed; the tree of the remaining places is as it was. -/
structure Freed (s : InodeImpl) (used clean : Set Place) (bids : List Nat) (s' : InodeImpl) : Prop where
  released : Ext2.Released s.fs bids s'.fs
  tree : s'.HasTree used clean
  same : ∀ q ∈ used, s'.locate q = s.locate q
  size : SameSize s s'

variable {clean' : Set Place} {n fuel lvl1 lvl2 k : Nat}

theorem Freed.append (h : Freed s used clean bids s') (h' : Freed s' used clean' bids' s'') :
    Freed s used clean' (bids ++ bids') s'' :=
  ⟨h.released.append h'.released, h'.tree, fun q mem => (h'.same q mem).trans (h.same q mem), h.size.trans h'.size⟩

/-- After blocks of the tree are freed, the blocks in use are those of the remaining places. -/
theorem Mapped.freed (h : Mapped s others used clean) {used' : Set Place} (sub : used' ⊆ used)
    (freed : Freed s used' clean' bids s')
    (gone : ∀ bid, bid ∈ bids ↔ ∃ p ∈ used, p ∉ used' ∧ s.locate p = bid) :
    Mapped s' others used' clean' where
  tree := freed.tree
  wf := freed.released.wf
  reserved := h.reserved
  there p mem := freed.same p mem ▸ (freed.released.alike.hasBlock _).mpr (h.there p (sub mem))
  apart p mem := freed.same p mem ▸ h.apart p (sub mem)
  inUse bid := by
    rw [freed.released.used, h.inUse, gone]
    constructor
    · rintro ⟨other | ⟨p, mem, rfl⟩, kept⟩
      · exact .inl other
      · have stays : p ∈ used' := Classical.not_not.mp fun gone => kept ⟨p, mem, gone, rfl⟩
        exact .inr ⟨p, stays, freed.same p stays⟩
    rintro (other | ⟨p, mem, rfl⟩)
    · refine ⟨.inl other, ?_⟩
      rintro ⟨p, mem, -, rfl⟩
      exact absurd (other.symm.trans (h.apart p mem)) (by decide)
    · rw [freed.same p mem]
      refine ⟨.inr ⟨p, sub mem, rfl⟩, ?_⟩
      rintro ⟨q, mem', gone, eq⟩
      exact gone (h.tree.inj q mem' p (sub mem) eq ▸ mem)

/-! ### Reading device ranges -/

theorem runLength_le (f : Nat → Nat) (n idx bid : Nat) : runLength f n idx bid ≤ n := by
  induction n generalizing idx bid with
  | zero => exact le_rfl
  | succ n ih =>
    rw [runLength]
    split
    · exact succ_le_succ (ih _ _)
    · exact zero_le _

theorem runLength_spec (f : Nat → Nat) (n idx bid : Nat) {j : Nat} (lt : j < runLength f n idx bid) :
    f (idx + j) = bid + j := by
  induction n generalizing idx bid j with
  | zero => exact absurd lt (not_lt_zero j)
  | succ n ih =>
    rw [runLength] at lt
    split at lt
    · next eq =>
      cases j with
      | zero => exact eq
      | succ j =>
        have := ih (idx + 1) (bid + 1) (lt_of_succ_lt_succ lt)
        rwa [add_right_comm, add_right_comm bid] at this
    · exact absurd lt (not_lt_zero j)

/-- The block of pointers a path ends in. -/
def Holds (s : InodeImpl) (path : BidPath) (block : Option (Nat → Nat)) : Prop :=
  ∀ j, block.getD s.blockPtrs (path.lastLvlIdx + j) = s.locate (.block (path.skip j))

theorem indirectBlockAt_ok (s : InodeImpl) (valid : path.Valid) :
    ∃ block, s.indirectBlockAt path.bid = .ok block ∧ s.Holds path block := by
  unfold indirectBlockAt
  rw [ofBid_of_valid valid]
  cases path with
  | _ => exact ⟨_, rfl, fun _ => rfl⟩

theorem newReader_ok (s : InodeImpl) (valid : path.Valid) (lt : path.bid < stop) :
    ∃ block, s.newReader path.bid stop = .ok ⟨path.bid, stop, block⟩ ∧ s.Holds path block := by
  obtain ⟨block, eq, holds⟩ := s.indirectBlockAt_ok valid
  refine ⟨block, ?_, holds⟩
  unfold newReader
  rw [require_of _ lt, eq]
  rfl

theorem blocks_map {first : Nat} (eq : ∀ j < n, s.locate (.block (path.skip j)) = first + j) :
    (path.blocks n).map s.locate = List.range' first n := by
  induction n generalizing path first with
  | zero => rfl
  | succ n ih =>
    have head : s.locate (.block path) = first := by
      have := eq 0 (succ_pos n)
      rwa [skip_zero] at this
    rw [blocks, map_cons, head]
    refine congrArg (first :: ·) (ih fun j lt => ?_)
    rw [skip_skip, eq (1 + j) (by omega), add_assoc]

/-- A range of consecutive device blocks is read, and the reader goes on behind it. -/
theorem readRange_ok (valid : path.Valid) (lt : path.bid < stop) (inside : stop - path.bid ≤ path.cntToNextIndirect)
    (bound : stop < maxBlocks) (holds : s.Holds path block) :
    ∃ first len block', s.readRange ⟨path.bid, stop, block⟩ = .ok
      ((first, first + len), ⟨path.bid + len, stop, block'⟩) ∧
      0 < len ∧ len ≤ stop - path.bid ∧ (path.blocks len).map s.locate = List.range' first len ∧
      (len < stop - path.bid → block' = block) := by
  unfold readRange
  rw [ofBid_of_valid valid, ok_bind]
  dsimp only
  rw [min_eq_left inside]
  have le := runLength_le (block.getD s.blockPtrs) (stop - path.bid - 1) (path.lastLvlIdx + 1)
    (block.getD s.blockPtrs path.lastLvlIdx + 1)
  have run := @runLength_spec (block.getD s.blockPtrs) (stop - path.bid - 1) (path.lastLvlIdx + 1)
    (block.getD s.blockPtrs path.lastLvlIdx + 1)
  have head : block.getD s.blockPtrs path.lastLvlIdx = s.locate (.block path) := by
    have := holds 0
    rwa [skip_zero] at this
  rw [head] at le run ⊢
  generalize runLength (block.getD s.blockPtrs) (stop - path.bid - 1) (path.lastLvlIdx + 1)
    (s.locate (.block path) + 1) = len
    at le run ⊢
  have blocks : (path.blocks (len + 1)).map s.locate = range' (s.locate (.block path)) (len + 1) := by
    refine blocks_map fun j lt => ?_
    cases j with
    | zero => rw [skip_zero, add_zero]
    | succ j =>
      have := run (j := j) (by omega)
      rw [add_assoc, add_comm 1 j, holds] at this
      omega
  split
  · next whole =>
    obtain ⟨last, valid', eq⟩ := exists_path (b := path.bid + (len + 1)) (by omega)
    obtain ⟨block', read, -⟩ := s.indirectBlockAt_ok valid'
    rw [eq] at read
    rw [read]
    exact ⟨_, _, _, rfl, succ_pos len, by omega, blocks, fun less => absurd less (by omega)⟩
  · exact ⟨_, _, _, rfl, succ_pos len, by omega, blocks, fun _ => rfl⟩

theorem Holds.skip (h : s.Holds path block) (k : Nat) : s.Holds (path.skip k) block := by
  intro j
  rw [lastLvlIdx_skip, add_assoc, skip_skip]
  exact h (k + j)

/-- The blocks of a range are freed, one device range after the other. -/
theorem freeRanges_ok (wf : s.fs.WF) (enough : n ≤ fuel) (valid : 0 < n → path.Valid)
    (inside : n ≤ path.cntToNextIndirect) (bound : path.bid + n < maxBlocks) (holds : 0 < n → s.Holds path block)
    (nodup : ((path.blocks n).map s.locate).Nodup)
    (inUse : ∀ p ∈ path.blocks n, s.fs.HasBlock (s.locate p) ∧ s.fs.used (s.locate p) = true) :
    ∃ fs, freeRanges fuel s ⟨path.bid, path.bid + n, block⟩ = .ok { s with fs } ∧
      Ext2.Released s.fs ((path.blocks n).map s.locate) fs := by
  induction fuel generalizing s path n block with
  | zero =>
    obtain rfl : n = 0 := by omega
    exact ⟨s.fs, rfl, .nil wf⟩
  | succ fuel ih =>
    rw [freeRanges]
    split
    · next empty =>
      obtain rfl : n = 0 := by
        dsimp only at empty
        omega
      exact ⟨s.fs, rfl, .nil wf⟩
    · next some =>
      have pos : 0 < n := by
        dsimp only at some
        omega
      obtain ⟨first, len, block', eq, pos', le, mapped, same⟩ :=
        readRange_ok (valid pos) (Nat.lt_add_of_pos_right pos)
        (by omega) bound (holds pos)
      rw [Nat.add_sub_cancel_left] at le same
      have parts : path.blocks n = path.blocks len ++ (path.skip len).blocks (n - len) := by
        rw [← blocks_append, Nat.add_sub_cancel' le]
      rw [parts, map_append, mapped] at nodup ⊢
      rw [parts] at inUse
      obtain ⟨-, nodup', apart⟩ := nodup_append.mp nodup
      obtain ⟨fs, freed, released⟩ := Ext2.freeBlocksUnwrap_ok first (first + len) wf fun bid le lt => by
        have mem : bid ∈ (path.blocks len).map s.locate := mapped ▸ mem_range'_1.mpr ⟨le, lt⟩
        obtain ⟨p, mem', rfl⟩ := mem_map.mp mem
        exact inUse p (mem_append_left _ mem')
      rw [Nat.add_sub_cancel_left] at released
      rw [eq, ok_bind]
      dsimp only
      rw [freed]
      have rest : path.bid + n = (path.skip len).bid + (n - len) := by
        rw [bid_skip]
        omega
      have holds' : 0 < n - len → Holds { s with fs } (path.skip len) block' := fun more => by
        rw [same (by omega)]
        exact (holds pos).skip len
      obtain ⟨fs', eq', released'⟩ := ih released.wf (by omega)
        (fun more => (valid pos).skip (by omega)) (by rw [cntToNextIndirect_skip]; omega) (by omega) holds' nodup'
        fun p mem => released.inUse (inUse p (mem_append_right _ mem)) fun mem' =>
          apart _ mem' _ (mem_map_of_mem mem) rfl
      rw [← rest, bid_skip] at eq'
      exact ⟨fs', eq', released.append released'⟩

/-! ### Freeing indirect blocks -/

theorem freeIndirect_freed (tree : s.HasTree used clean) (wf : s.fs.WF)
    (inUse : s.fs.HasBlock bid ∧ s.fs.used bid = true) (apart : ∀ q ∈ used, s.locate q ≠ bid) :
    ∃ s', s.freeIndirect bid = .ok s' ∧ Freed s used clean [bid] s' := by
  obtain ⟨fs, eq, released⟩ := Ext2.freeBlocksUnwrap_ok bid (bid + 1) wf fun b le lt => by
    obtain rfl : b = bid := by omega
    exact inUse
  rw [Nat.add_sub_cancel_left] at released
  unfold freeIndirect
  rw [eq]
  have located := ({ s with fs, indirectBlocks := s.indirectBlocks.remove bid }).located
  have store : ({ s with fs, indirectBlocks := s.indirectBlocks.remove bid }).store =
      s.store.setBlock bid (s.indirectBlocks.disk bid) := by
    simp [InodeImpl.store, Store.setBlock, IndirectBlockCache.find_remove]
  rw [store] at located
  obtain ⟨tree', same⟩ := tree.setBlock s.located located apart
  exact ⟨_, rfl, released, tree', fun q mem => same q (tree.closed q mem), ⟨rfl, rfl, released.alike⟩⟩

section

variable (tree : s.HasTree used (clean \ {p})) (root : p.parent = none) (valid : p.Valid) (free : p ∉ used) (v : Nat)
include tree root valid free v

theorem setPtr_tree (zero : p ∈ clean → v = 0) :
    (s.setPtr p.slot v).HasTree used clean ∧ ∀ q ∈ used, (s.setPtr p.slot v).locate q = s.locate q := by
  have located := (s.setPtr p.slot v).located
  have store : (s.setPtr p.slot v).store = s.store.set ((shape.parent p).map s.locate) (shape.slot p) v := by
    change _ = s.store.set (p.parent.map s.locate) p.slot v
    rw [root]
    rfl
  rw [store] at located
  exact tree.set s.located located valid free (attached_root used root) zero

/-- A pointer of the inode is overwritten and its block freed. -/
theorem setPtr_freeIndirect_freed (zero : p ∈ clean → v = 0) (wf : s.fs.WF)
    (inUse : s.fs.HasBlock bid ∧ s.fs.used bid = true) (apart : ∀ q ∈ used, s.locate q ≠ bid) :
    ∃ s', (s.setPtr p.slot v).freeIndirect bid = .ok s' ∧ Freed s used clean [bid] s' := by
  obtain ⟨tree', same⟩ := setPtr_tree tree root valid free v zero
  obtain ⟨s', eq, freed⟩ := freeIndirect_freed tree' wf inUse fun q mem => same q mem ▸ apart q mem
  exact ⟨s', eq, freed.released, freed.tree, fun q mem => (freed.same q mem).trans (same q mem),
    ⟨freed.size.groupIdx, freed.size.size, freed.size.alike⟩⟩

end

/-- What is left to be freed: places whose blocks are in use and are none of the remaining tree's. -/
structure Leaving (s : InodeImpl) (used : Set Place) (ps : List Place) : Prop where
  wf : s.fs.WF
  nodup : (ps.map s.locate).Nodup
  inUse : ∀ p ∈ ps, s.fs.HasBlock (s.locate p) ∧ s.fs.used (s.locate p) = true
  ne : ∀ p ∈ ps, s.locate p ≠ 0
  apart : ∀ p ∈ ps, ∀ q ∈ used, s.locate q ≠ s.locate p

/-- A block that is yet to be freed is in use after others have been. -/
theorem Leaving.later (h : Leaving s used ps) (freed : Freed s used clean bids s') (mem : p ∈ ps)
    (apart : s.locate p ∉ bids) :
    (s'.fs.HasBlock (s.locate p) ∧ s'.fs.used (s.locate p) = true) ∧ ∀ q ∈ used, s'.locate q ≠ s.locate p :=
  ⟨freed.released.inUse (h.inUse p mem) apart, fun q used => freed.same q used ▸ h.apart p mem q used⟩

/-- The pointer of the inode to a tree is cleared and its block freed, once the blocks below have been. -/
theorem Leaving.drop (h : Leaving s used ps) (freed : Freed s used (cleared \ {p | p ∈ ps}) bids s') (mem : p ∈ ps)
    (apart : s.locate p ∉ bids) (root : p.parent = none) (valid : p.Valid) (free : p ∉ used)
    (only : ∀ q ∈ cleared, q ∈ ps → q = p) :
    ∃ s'', (s'.setPtr p.slot 0).freeIndirect (s.locate p) = .ok s'' ∧
      Freed s used cleared (bids ++ [s.locate p]) s'' := by
  obtain ⟨inUse, apart⟩ := h.later freed mem apart
  have tree : s'.HasTree used (cleared \ {p}) :=
    freed.tree.mono fun q ⟨mem, ne⟩ => ⟨mem, fun mem' => ne (only q mem mem')⟩
  obtain ⟨s'', eq, freed'⟩ :=
    setPtr_freeIndirect_freed tree root valid free 0 (fun _ => rfl) freed.released.wf inUse apart
  exact ⟨s'', eq, freed.append freed'⟩

theorem cleared_sdiff_of_disjoint (none : ∀ p ∈ ps, p ∉ cleared) : cleared \ {p | p ∈ ps} = cleared := by
  refine Set.Subset.antisymm Set.sdiff_subset fun p mem => ⟨mem, fun mem' => none p mem' mem⟩

theorem freeDbIndirect_freed (valid : (dbIndirect lvl1 0).Valid)
    (tree : s.HasTree (owned (dbIndirect lvl1 0).bid) (cleared \ {p | p ∈ (dbIndirect lvl1 0).required}))
    (leaving : Leaving s (owned (dbIndirect lvl1 0).bid) (dbIndirect lvl1 0).required) :
    ∃ s', s.freeIndirectBlocksRequiredBy (dbIndirect lvl1 0).bid = .ok s' ∧
      Freed s (owned (dbIndirect lvl1 0).bid) cleared ((dbIndirect lvl1 0).required.map s.locate).reverse s' := by
  have lower : dbLvl1 lvl1 ∈ (dbIndirect lvl1 0).required := by cases lvl1 <;> simp [required]
  have top : s.blockPtrs DB_INDIRECT ≠ 0 := by
    cases lvl1 with
    | zero => exact leaving.ne .dbIndirect (by simp [required])
    | succ lvl1 =>
      refine tree.ne .dbIndirect ⟨trivial, ?_⟩
      simp only [first, firstPath, bid]
      omega
  obtain ⟨s1, eq1, freed1⟩ := freeIndirect_freed tree leaving.wf (leaving.inUse _ lower) (leaving.apart _ lower)
  unfold freeIndirectBlocksRequiredBy
  rw [ofBid_of_valid valid, ok_bind, if_neg (by simp [lastLvlIdx]), if_neg (by simp [bid])]
  dsimp only
  rw [if_neg top, freeIndirectIf,
    if_pos (show s.indirectBlocks.find (s.blockPtrs DB_INDIRECT) lvl1 ≠ 0 from leaving.ne _ lower)]
  change ∃ s', (s.freeIndirect (s.locate (.dbLvl1 lvl1)) >>= fun s1 => s1.dropIndirectIf
    (lvl1 = 0) DB_INDIRECT (s.blockPtrs DB_INDIRECT)) = _ ∧ _
  rw [eq1, ok_bind]
  cases lvl1 with
  | zero =>
    have ne : s.locate .dbIndirect ∉ [s.locate (.dbLvl1 0)] := (nodup_cons.mp leaving.nodup).1
    exact leaving.drop freed1 (by simp [required]) ne rfl trivial (not_mem_owned_first .dbIndirect)
      (by simp [required, cleared])
  | succ lvl1 =>
    rw [cleared_sdiff_of_disjoint (by simp [required, cleared])] at freed1
    exact ⟨s1, rfl, freed1⟩

/-- The lower levels of a treble indirect block. -/
theorem freeTbLower_freed (tree : s.HasTree used clean) (leaving : Leaving s used ps)
    (level : s.locate (.tbLvl1 lvl1) ≠ 0) (leaf : .tbLvl2 lvl1 lvl2 ∈ ps)
    (both : lvl2 = 0 → .tbLvl1 lvl1 ∈ ps ∧ s.locate (.tbLvl1 lvl1) ≠ s.locate (.tbLvl2 lvl1 lvl2)) :
    ∃ s', s.freeTbLower (s.locate (.tbLvl1 lvl1)) lvl2 = .ok s' ∧
      Freed s used clean (s.locate (.tbLvl2 lvl1 lvl2) :: if lvl2 = 0 then [s.locate (.tbLvl1 lvl1)] else []) s' := by
  obtain ⟨s1, eq1, freed1⟩ := freeIndirect_freed tree leaving.wf (leaving.inUse _ leaf) (leaving.apart _ leaf)
  have some : s.indirectBlocks.find (s.locate (.tbLvl1 lvl1)) lvl2 ≠ 0 := leaving.ne _ leaf
  unfold freeTbLower
  rw [if_neg level]
  dsimp only
  rw [freeIndirectIf, if_pos some]
  change ∃ s', (s.freeIndirect (s.locate (.tbLvl2 lvl1 lvl2)) >>= fun s1 =>
    s1.freeIndirectIf (lvl2 = 0) (s.locate (.tbLvl1 lvl1))) = _ ∧ _
  rw [eq1, ok_bind, freeIndirectIf]
  split
  · next zero =>
    obtain ⟨mem, ne⟩ := both zero
    obtain ⟨inUse, apart⟩ := leaving.later freed1 mem (by simpa using ne)
    obtain ⟨s2, eq2, freed2⟩ := freeIndirect_freed freed1.tree freed1.released.wf inUse apart
    exact ⟨s2, eq2, freed1.append freed2⟩
  · exact ⟨s1, rfl, freed1⟩

theorem freeTbIndirect_freed (valid : (tbIndirect lvl1 lvl2 0).Valid)
    (tree : s.HasTree (Place.owned (tbIndirect lvl1 lvl2 0).bid)
      (cleared \ {p | p ∈ (tbIndirect lvl1 lvl2 0).required}))
    (leaving : Leaving s (Place.owned (tbIndirect lvl1 lvl2 0).bid) (tbIndirect lvl1 lvl2 0).required) :
    ∃ s', s.freeIndirectBlocksRequiredBy (tbIndirect lvl1 lvl2 0).bid = .ok s' ∧
      Freed s (Place.owned (tbIndirect lvl1 lvl2 0).bid) cleared
        ((tbIndirect lvl1 lvl2 0).required.map s.locate).reverse s' := by
  have leaf : tbLvl2 lvl1 lvl2 ∈ (tbIndirect lvl1 lvl2 0).required := by
    cases lvl1 <;> cases lvl2 <;> simp [required]
  have both : lvl2 = 0 → tbLvl1 lvl1 ∈ (tbIndirect lvl1 lvl2 0).required ∧
      s.locate (.tbLvl1 lvl1) ≠ s.locate (.tbLvl2 lvl1 lvl2) := by
    rintro rfl
    have nodup := leaving.nodup
    cases lvl1 <;> simp_all [required]
  have level : s.locate (.tbLvl1 lvl1) ≠ 0 := by
    cases lvl2 with
    | zero => exact leaving.ne _ (both rfl).1
    | succ lvl2 =>
      refine tree.ne _ ⟨valid.1, ?_⟩
      simp only [Place.first, firstPath, bid]
      omega
  have top : s.blockPtrs TB_INDIRECT ≠ 0 := by
    by_cases first : lvl1 = 0 ∧ lvl2 = 0
    · obtain ⟨rfl, rfl⟩ := first
      exact leaving.ne .tbIndirect (by simp [required])
    · refine tree.ne .tbIndirect ⟨trivial, ?_⟩
      simp only [Place.first, firstPath, bid]
      omega
  obtain ⟨s1, eq1, freed1⟩ := freeTbLower_freed tree leaving level leaf both
  unfold freeIndirectBlocksRequiredBy
  rw [ofBid_of_valid valid, ok_bind, if_neg (by simp [lastLvlIdx]), if_neg (by simp [bid])]
  dsimp only
  rw [if_neg top]
  change ∃ s', (s.freeTbLower (s.locate (.tbLvl1 lvl1)) lvl2 >>= fun s1 =>
    s1.dropIndirectIf (lvl2 = 0 ∧ lvl1 = 0) TB_INDIRECT (s.locate .tbIndirect)) = _ ∧ _
  rw [eq1, ok_bind]
  cases lvl2 with
  | zero =>
    cases lvl1 with
    | zero =>
      have ne : s.locate .tbIndirect ∉ [s.locate (.tbLvl2 0 0), s.locate (.tbLvl1 0)] := by
        have := (nodup_cons.mp leaving.nodup).1
        simp_all
      exact leaving.drop freed1 (by simp [required]) ne rfl trivial (not_mem_owned_first .tbIndirect)
        (by simp [required, cleared])
    | succ lvl1 =>
      rw [cleared_sdiff_of_disjoint (by simp [required, cleared])] at freed1
      exact ⟨s1, rfl, freed1⟩
  | succ lvl2 =>
    rw [required, cleared_sdiff_of_disjoint (by simp [cleared])] at freed1
    rw [required]
    exact ⟨s1, rfl, freed1⟩

/-- The indirect blocks that only the blocks from `path` on needed are freed, the lowest one first. -/
theorem freeIndirectBlocksRequiredBy_freed (valid : path.Valid) (some : path.required ≠ [])
    (tree : s.HasTree (Place.owned path.bid) (cleared \ {p | p ∈ path.required}))
    (leaving : Leaving s (Place.owned path.bid) path.required) :
    ∃ s', s.freeIndirectBlocksRequiredBy path.bid = .ok s' ∧
      Freed s (Place.owned path.bid) cleared (path.required.map s.locate).reverse s' := by
  have zero := lastLvlIdx_of_required some
  cases path with
  | direct idx => exact absurd rfl some
  | indirect idx =>
    obtain rfl := zero
    have mem : Place.indirect ∈ (indirect 0).required := by simp [required]
    have ne : s.blockPtrs INDIRECT ≠ 0 := leaving.ne _ mem
    have tree' : s.HasTree (Place.owned (indirect 0).bid) (cleared \ {.indirect}) := by
      refine tree.mono ?_
      rintro p ⟨mem, ne⟩
      exact ⟨mem, fun mem' => ne (mem_singleton.mp mem')⟩
    obtain ⟨s', eq, freed⟩ := setPtr_freeIndirect_freed tree' rfl trivial (not_mem_owned_first .indirect) 12
      (fun mem => by simp [cleared] at mem) leaving.wf (leaving.inUse _ mem) (leaving.apart _ mem)
    refine ⟨s', ?_, freed⟩
    unfold freeIndirectBlocksRequiredBy
    rw [ofBid_of_valid valid, ok_bind, if_neg (by simp [lastLvlIdx])]
    rw [if_neg ne]
    exact eq
  | dbIndirect lvl1 lvl2 =>
    obtain rfl := zero
    exact freeDbIndirect_freed valid tree leaving
  | tbIndirect lvl1 lvl2 lvl3 =>
    obtain rfl := zero
    exact freeTbIndirect_freed valid tree leaving

/-! ### Shrinking by a range -/

/-- Where no indirect block is needed, none is freed. -/
theorem freeIndirectBlocksRequiredBy_none (valid : path.Valid) (none : path.required = []) :
    s.freeIndirectBlocksRequiredBy path.bid = .ok s := by
  unfold freeIndirectBlocksRequiredBy
  rw [ofBid_of_valid valid, ok_bind]
  split
  · rfl
  · next zero =>
    have start : path.bid = 0 := by
      unfold required at none
      split at none <;> simp_all [lastLvlIdx, bid]
    rw [if_pos start]
    rfl

theorem nodup_map_locate (tree : s.HasTree used clean) (nodup : ps.Nodup) (sub : ∀ p ∈ ps, p ∈ used) :
    (ps.map s.locate).Nodup :=
  nodup.map_on fun p mem q mem' => tree.inj p (sub p mem) q (sub q mem')

theorem nodup_blocks (path : BidPath) (n : Nat) : (path.blocks n).Nodup := by
  induction n generalizing path with
  | zero => exact .nil
  | succ n ih =>
    have later : ∀ p ∈ (path.skip 1).blocks n, p ∉ ∅ ∪ {p | p ∈ [block path]} :=
      blocks_not_mem fun _ _ => id
    exact nodup_cons.mpr ⟨fun mem => later _ mem (.inr mem_cons_self), ih _⟩

theorem nodup_required (path : BidPath) : path.required.Nodup := by
  unfold required
  split <;> simp

/-- What a file loses when it shrinks within a last block of pointers. -/
theorem mem_owned_diff (valid : path.Valid) (pos : 0 < k) (le : k ≤ path.cntToNextIndirect) :
    p ∈ owned (path.bid + k) ∧ p ∉ owned path.bid ↔ p ∈ path.blocks k ++ path.required := by
  rw [mem_owned_add valid pos le, mem_append, mem_blocks]
  constructor
  · rintro ⟨mem | mem | mem, gone⟩
    · exact absurd mem gone
    · exact .inr mem
    · exact .inl mem
  · rintro (⟨j, lt, rfl⟩ | mem)
    · refine ⟨.inr (.inr ⟨j, lt, rfl⟩), fun mem => absurd mem.2 ?_⟩
      simp only [first, firstPath, bid_skip]
      omega
    · refine ⟨.inr (.inl mem), fun owned => absurd owned.2 ?_⟩
      rw [((mem_required valid).mp mem).2.2]
      exact lt_irrefl _

/-- The blocks from `path` on and the indirect blocks only they need are freed. -/
theorem freeFrom_ok (h : Mapped s others (owned (path.bid + k)) cleared) (valid : path.Valid)
    (pos : 0 < k) (le : k ≤ path.cntToNextIndirect) (bound : path.bid + k < maxBlocks) {reader : DeviceRangeReader}
    (eq : reader = ⟨path.bid, path.bid + k, block⟩) (holds : s.Holds path block) :
    ∃ s1 s', freeRanges k s reader = .ok s1 ∧ s1.freeIndirectBlocksRequiredBy path.bid = .ok s' ∧
      Freed s (owned path.bid) cleared ((path.blocks k).map s.locate ++ (path.required.map s.locate).reverse) s' := by
  have lost : ∀ {p}, p ∈ path.blocks k ++ path.required → p ∈ owned (path.bid + k) ∧ p ∉ owned path.bid :=
    (mem_owned_diff valid pos le).mpr
  have nodup : (path.blocks k ++ path.required).Nodup := by
    refine nodup_append.mpr ⟨nodup_blocks path k, nodup_required path, fun p mem q mem' same => ?_⟩
    obtain ⟨j, -, rfl⟩ := mem_blocks.mp mem
    exact ((mem_required valid).mp (same ▸ mem')).2.1
  have apart : ((path.blocks k ++ path.required).map s.locate).Nodup :=
    nodup_map_locate h.tree nodup fun p mem => (lost mem).1
  rw [map_append] at apart
  obtain ⟨first, second, apart⟩ := nodup_append.mp apart
  obtain ⟨fs, freed, released⟩ := freeRanges_ok h.wf (le_refl k) (fun _ => valid) le bound (fun _ => holds) first
    fun p mem => h.taken (lost (mem_append_left _ mem)).1
  have tree : s.HasTree (owned path.bid) (cleared \ {p | p ∈ path.required}) := by
    refine (h.tree.restrict (owned_mono (le_add_right _ k)) (owned_closed _)).mono ?_
    rintro p ⟨mem, ne⟩
    refine ⟨mem, fun gone => ?_⟩
    rcases mem_append.mp ((mem_owned_diff valid pos le).mp gone) with mem' | mem'
    · obtain ⟨j, -, rfl⟩ := mem_blocks.mp mem'
      simp [cleared] at mem
    · exact ne mem'
  have freed1 : Freed s (owned path.bid) (cleared \ {p | p ∈ path.required}) ((path.blocks k).map s.locate)
      { s with fs } := ⟨released, tree, fun _ _ => rfl, ⟨rfl, rfl, released.alike⟩⟩
  subst eq
  by_cases some : path.required = []
  · refine ⟨_, _, freed, freeIndirectBlocksRequiredBy_none valid some, ?_⟩
    rw [some] at freed1 ⊢
    simpa using freed1
  have leaving : Leaving { s with fs } (owned path.bid) path.required := by
    refine ⟨released.wf, second, fun p mem => ?_, fun p mem => ?_, fun p mem q mem' eq => ?_⟩
    · exact released.inUse (h.taken (lost (mem_append_right _ mem)).1) fun mem' =>
        apart _ mem' _ (mem_map_of_mem mem) rfl
    · exact h.tree.ne p (lost (mem_append_right _ mem)).1
    · obtain ⟨mem, gone⟩ := lost (mem_append_right (path.blocks k) mem)
      exact gone (h.tree.inj q (owned_mono (le_add_right _ k) mem') p mem eq ▸ mem')
  obtain ⟨s', eq, freed'⟩ := freeIndirectBlocksRequiredBy_freed valid some freed1.tree leaving
  exact ⟨_, s', freed, eq, freed1.append freed'⟩

/-- A smaller file with the same pointers to what is left. -/
structure Shrunk (s : InodeImpl) (others : Nat → Bool) (n : Nat) (s' : InodeImpl) : Prop where
  mapped : Mapped s' others (Place.owned n) Place.cleared
  same : ∀ p ∈ Place.owned n, s'.locate p = s.locate p
  size : SameSize s s'

theorem Shrunk.trans {m : Nat} (h : Shrunk s others n s') (h' : Shrunk s' others m s'') (le : m ≤ n) :
    Shrunk s others m s'' :=
  ⟨h'.mapped, fun p mem => (h'.same p mem).trans (h.same p (owned_mono le mem)), h.size.trans h'.size⟩

/-- One round of `shrink_blocks`. -/
theorem tryShrinkBlocks_ok (h : Mapped s others (owned stop) cleared) (lt : start < stop) (bound : stop < maxBlocks) :
    ∃ k s', s.tryShrinkBlocks start stop = .ok (k, s') ∧ 0 < k ∧ k ≤ stop - start ∧
      Shrunk s others (stop - k) s' := by
  obtain ⟨last, valid, eq⟩ := exists_path (b := stop - 1) (by omega)
  have pos : 0 < min (stop - start) (last.lastLvlIdx + 1) := by omega
  have size : min (stop - start) (last.lastLvlIdx + 1) ≤ stop - start := min_le_left _ _
  obtain ⟨path, valid', skip⟩ := valid.exists_back (min (stop - start) (last.lastLvlIdx + 1) - 1) (by omega)
  unfold tryShrinkBlocks
  rw [← eq, ofBid_of_valid valid, ok_bind]
  dsimp only
  generalize min (stop - start) (last.lastLvlIdx + 1) = k at *
  have first : path.bid + (k - 1) = stop - 1 := by rw [← bid_skip, skip, eq]
  have inside : k ≤ path.cntToNextIndirect := by
    have := valid.cntToNextIndirect_pos
    rw [← skip, cntToNextIndirect_skip] at this
    omega
  obtain rfl : stop = path.bid + k := by omega
  rw [Nat.add_sub_cancel]
  obtain ⟨block, reader, holds⟩ := s.newReader_ok valid' (Nat.lt_add_of_pos_right pos)
  obtain ⟨s1, s', ranges, indirect, freed⟩ := freeFrom_ok h valid' pos inside bound rfl holds
  rw [reader, ok_bind, ranges, ok_bind, indirect]
  refine ⟨k, s', rfl, pos, size, ?_⟩
  rw [Nat.add_sub_cancel]
  refine ⟨?_, freed.same, freed.size⟩
  refine h.freed (owned_mono (le_add_right _ k)) freed fun bid => ?_
  rw [mem_append, mem_reverse, ← mem_append, ← map_append, mem_map]
  constructor
  · rintro ⟨p, mem, eq⟩
    obtain ⟨owned, gone⟩ := (mem_owned_diff valid' pos inside).mpr mem
    exact ⟨p, owned, gone, eq⟩
  · rintro ⟨p, owned, gone, eq⟩
    exact ⟨p, (mem_owned_diff valid' pos inside).mp ⟨owned, gone⟩, eq⟩

theorem shrinkLoop_ok (h : Mapped s others (owned stop) cleared) (le : start ≤ stop)
    (enough : stop - start ≤ fuel) (bound : stop < maxBlocks) :
    ∃ s', shrinkLoop fuel s start stop = .ok s' ∧ Shrunk s others start s' := by
  induction fuel generalizing s stop with
  | zero =>
    obtain rfl : start = stop := by omega
    exact ⟨s, rfl, h, fun _ _ => rfl, .refl s⟩
  | succ fuel ih =>
    rw [shrinkLoop]
    split
    · next done =>
      obtain rfl : start = stop := by omega
      exact ⟨s, rfl, h, fun _ _ => rfl, .refl s⟩
    · next more =>
      obtain ⟨k, s1, eq, pos, short, shrunk⟩ := tryShrinkBlocks_ok h (not_le.mp more) bound
      obtain ⟨s', eq', shrunk'⟩ := ih shrunk.mapped (by omega) (by omega) (by omega)
      rw [eq]
      exact ⟨s', eq', shrunk.trans shrunk' (by omega)⟩

theorem deviceBidBefore_ok (s : InodeImpl) (bound : start < maxBlocks) :
    ∃ last, s.deviceBidBefore start = .ok last := by
  unfold deviceBidBefore
  split
  · exact ⟨none, rfl⟩
  · next ne =>
    obtain ⟨path, valid, eq⟩ := exists_path (b := start - 1) (by omega)
    have next : start = path.bid + 1 := by omega
    subst next
    have cnt := valid.cntToNextIndirect_pos
    obtain ⟨block, reader, holds⟩ := s.newReader_ok valid (lt_succ_self path.bid)
    obtain ⟨first, len, block', read, -⟩ := readRange_ok valid (lt_succ_self path.bid) (by omega) bound holds
    rw [Nat.add_sub_cancel, reader, ok_bind, read]
    exact ⟨_, rfl⟩

theorem shrinkBlocks_ok (h : Mapped s others (owned stop) cleared) (le : start ≤ stop) (bound : stop < maxBlocks) :
    ∃ s', s.shrinkBlocks start stop = .ok s' ∧ Shrunk s others start s' ∧ s'.blocksCount = start := by
  obtain ⟨s1, eq, shrunk⟩ := shrinkLoop_ok h le le_rfl bound
  obtain ⟨last, eq'⟩ := s1.deviceBidBefore_ok (lt_of_le_of_lt le bound)
  unfold shrinkBlocks
  rw [eq, ok_bind, eq']
  obtain ⟨⟨tree, wf, reserved, there, apart, inUse⟩, same, size⟩ := shrunk
  exact ⟨_, rfl, ⟨⟨tree, wf, reserved, there, apart, inUse⟩, same,
    ⟨size.groupIdx, size.size, size.alike⟩⟩, rfl⟩

end InodeImpl

end OmegaOsx.Ext2
