import OmegaOsx.Ext2.BlockShrink

/-!
# Expanding

A file grows by ranges of blocks. `need` counts the device blocks of a growth, indirect blocks included; an
expansion of blocks that fails does so for lack of them, and then shrinks the file back.

A new first level below a treble indirect block is told from an old one by the pointer to it, so that it has to
be zero (`tested`). After a shrink it is not.
-/

namespace OmegaOsx.Ext2

open PointerTree BidPath List Place
open MlsDisk (ok_bind)

namespace BidPath

theorem indirectCnt_eq (path : BidPath) : path.indirectCnt = path.required.length := by
  cases path with
  | direct idx => rfl
  | indirect idx => cases idx <;> rfl
  | dbIndirect lvl1 lvl2 => cases lvl2 <;> cases lvl1 <;> rfl
  | tbIndirect lvl1 lvl2 lvl3 => cases lvl3 <;> cases lvl2 <;> cases lvl1 <;> rfl

theorem length_blocks (path : BidPath) (n : Nat) : (path.blocks n).length = n := by
  induction n generalizing path with
  | zero => rfl
  | succ n ih => rw [blocks, length_cons, ih]

theorem indirectCnt_of_lastLvlIdx {path : BidPath} (ne : path.lastLvlIdx ≠ 0) : path.indirectCnt = 0 := by
  rw [indirectCnt_eq, length_eq_zero_iff]
  exact Classical.not_not.mp fun some => ne (InodeImpl.lastLvlIdx_of_required some)

end BidPath

/-- The device blocks that `k` more blocks from `n` on need. -/
def need (n : Nat) : Nat → Nat
  | 0 => 0
  | k + 1 => need n k + (1 + (BidPath.ofBid (n + k)).toOption.elim 0 BidPath.indirectCnt)

theorem need_add (n j k : Nat) : need n (j + k) = need n j + need (n + j) k := by
  induction k with
  | zero => rfl
  | succ k ih => rw [← add_assoc, need, need, ih, add_assoc, add_assoc n]

theorem need_of_le_cnt {path : BidPath} (valid : path.Valid) {k : Nat} (le : k + 1 ≤ path.cntToNextIndirect) :
    need path.bid (k + 1) = (k + 1) + path.indirectCnt := by
  induction k with
  | zero =>
    rw [need, add_zero, ofBid_of_valid valid]
    simp [need, Except.toOption]
  | succ k ih =>
    have valid' : (path.skip (k + 1)).Valid := valid.skip (by omega)
    have none : (path.skip (k + 1)).indirectCnt = 0 := indirectCnt_of_lastLvlIdx (by rw [lastLvlIdx_skip]; omega)
    rw [need, ← bid_skip, ofBid_of_valid valid']
    simp only [Except.toOption, Option.elim_some]
    omega

variable {stop : Nat}

namespace InodeImpl

variable {s s' s'' : InodeImpl} {others : Nat → Bool} {used clean : Set Place} {p : Place} {bid : Nat}
  {bids : List Nat} {path : BidPath} {fs : Ext2} {ps : List Place} {n : Nat}

section

variable (h : Mapped s others used clean) (grabbed : Ext2.Grabbed s.fs bids fs)
include h grabbed

/-- New blocks are none of the tree's, and not the first block of the device. -/
theorem Mapped.fresh : Fresh { s with fs } used bids := by
  have free : ∀ bid ∈ bids, s.fs.used bid = false := fun bid mem => (grabbed.free bid mem).2
  refine ⟨grabbed.nodup, fun bid mem => ?_, fun bid mem q owned => ?_⟩
  · rintro rfl
    exact absurd ((free 0 mem).symm.trans ((h.inUse 0).mpr (.inl h.reserved))) (by decide)
  · rintro rfl
    exact absurd ((free _ mem).symm.trans (h.taken owned).2) (by decide)

/-- The blocks that were taken are in the tree now. -/
theorem Mapped.linked
    (linked : Linked { s with fs } used clean ps bids s') : Mapped s' others (used ∪ {p | p ∈ ps}) clean := by
  have new : ∀ p ∈ ps, s'.locate p ∈ bids := fun p mem => linked.new ▸ mem_map_of_mem mem
  have old : ∀ p ∈ used, s'.locate p = s.locate p := linked.same
  have same : s'.fs = fs := linked.desc.fs
  refine ⟨linked.tree, same ▸ grabbed.wf, h.reserved, ?_, ?_, fun bid => ?_⟩
  · rintro p (mem | mem)
    · rw [old p mem, same]
      exact (grabbed.alike.hasBlock _).mpr (h.there p mem)
    · rw [same]
      exact (grabbed.alike.hasBlock _).mpr (grabbed.free _ (new p mem)).1
  · rintro p (mem | mem)
    · rw [old p mem]
      exact h.apart p mem
    · refine Bool.eq_false_iff.mpr fun other => ?_
      have := (grabbed.free _ (new p mem)).2
      exact absurd (this.symm.trans ((h.inUse _).mpr (.inl other))) (by decide)
  · rw [same, grabbed.used, h.inUse, ← linked.new, mem_map]
    constructor
    · rintro ((other | ⟨p, mem, eq⟩) | ⟨p, mem, eq⟩)
      · exact .inl other
      · exact .inr ⟨p, .inl mem, (old p mem).trans eq⟩
      · exact .inr ⟨p, .inr mem, eq⟩
    · rintro (other | ⟨p, mem | mem, eq⟩)
      · exact .inl (.inl other)
      · exact .inl (.inr ⟨p, mem, (old p mem).symm.trans eq⟩)
      · exact .inr ⟨p, mem, eq⟩

end

/-- A larger file with the same pointers to what was there. -/
structure Grown (s : InodeImpl) (others : Nat → Bool) (clean : Set Place) (n m : Nat) (s' : InodeImpl) : Prop where
  mapped : Mapped s' others (Place.owned m) clean
  same : ∀ p ∈ Place.owned n, s'.locate p = s.locate p
  size : SameSize s s'
  separated : s'.fs.Separated
  count : s'.fs.freeBlocksCount + need n (m - n) = s.fs.freeBlocksCount
  blocks : s'.blocksCount = if n < m then m else s.blocksCount

theorem owned_union (valid : path.Valid) {k : Nat} (pos : 0 < k) (le : k ≤ path.cntToNextIndirect) :
    owned path.bid ∪ {p | p ∈ path.required ++ path.blocks k} = owned (path.bid + k) := by
  ext p
  rw [mem_owned_add valid pos le, Set.mem_union, Set.mem_ofPred_eq, mem_append, mem_blocks]

/-- What `try_expand_blocks` does with the blocks it has got. -/
theorem linked_grown {start : Nat} (bids : List Nat) (h : Mapped s others (owned path.bid) clean)
    (sep : s.fs.Separated) (valid : path.Valid) (lt : start < stop) (le : stop - start ≤ path.cntToNextIndirect)
    (grabbed : Ext2.Grabbed s.fs (bids ++ List.range' start (stop - start)) fs)
    (linked : Linked { s with fs } (owned path.bid) clean (path.required ++ path.blocks (stop - start))
      (bids ++ List.range' start (stop - start)) s') :
    Grown s others clean path.bid (path.bid + (stop - start)) (s'.recordRange path.bid start stop) := by
  have mapped := h.linked grabbed linked
  rw [owned_union valid (by omega) le] at mapped
  obtain ⟨tree, wf, reserved, there, apart, inUse⟩ := mapped
  have same : s'.fs = fs := linked.desc.fs
  refine ⟨⟨tree, wf, reserved, there, apart, inUse⟩, linked.same,
    ⟨linked.desc.groupIdx, linked.desc.size, same ▸ grabbed.alike⟩, ?_, ?_,
    (if_pos (by omega)).symm⟩
  · change s'.fs.Separated
    rw [same]
    exact grabbed.separated sep
  have count := grabbed.count
  have len := congrArg length linked.new
  have cnt := path.indirectCnt_eq
  have cost := need_of_le_cnt valid (k := stop - start - 1) (by omega)
  rw [Nat.sub_add_cancel (by omega)] at cost
  rw [Nat.add_sub_cancel_left]
  rw [length_map, length_append, length_blocks] at len
  change s'.fs.freeBlocksCount + _ = _
  rw [same]
  omega

/-- One round of `expand_blocks`: it fails for lack of free blocks and changes nothing, or the file has grown. -/
def Expands (s : InodeImpl) (others : Nat → Bool) (clean : Set Place) (n stop : Nat)
    (result : Res (Outcome InodeImpl Nat)) :
    Prop :=
  (∃ e, result = .ok (.error e, s) ∧ s.fs.freeBlocksCount < need n (stop - n)) ∨
    ∃ k s', result = .ok (.ok k, s') ∧ 0 < k ∧ k ≤ stop - n ∧ Grown s others clean n (n + k) s'

theorem attached_block (valid : path.Valid) :
    Attached shape (owned path.bid ∪ {p | p ∈ path.required}) (.block path) := by
  intro q eq
  obtain ⟨valid', le⟩ := parent_first (show (block path).Valid from valid) eq
  rcases lt_or_eq_of_le le with lt | same
  · exact .inl ⟨valid', lt⟩
  · refine .inr ((mem_required valid).mpr ⟨valid', ?_, same⟩)
    cases path <;> cases eq <;> exact trivial

theorem blocks_free (valid : path.Valid) {k : Nat} (le : k ≤ path.cntToNextIndirect) :
    ∀ p ∈ path.blocks k, p ∉ owned path.bid ∪ {p | p ∈ path.required} := by
  rintro p mem (owned | required)
  · exact ((mem_owned_diff valid (pos_of_ne_zero fun zero => by subst zero; cases mem) le).mpr
      (mem_append_left _ mem)).2 owned
  · obtain ⟨j, -, rfl⟩ := mem_blocks.mp mem
    exact ((mem_required valid).mp required).2.1

theorem need_mono {n j k : Nat} (le : j ≤ k) : need n j ≤ need n k := by
  obtain ⟨d, rfl⟩ := Nat.exists_eq_add_of_le le
  rw [need_add]
  exact Nat.le_add_right _ _

section

variable (h : Mapped s others (owned path.bid) clean) (sep : s.fs.Separated) (valid : path.Valid)
include h sep valid

theorem expandInBlock_ok {maxCnt : Nat} (none : path.required = []) (pos : 0 < maxCnt)
    (le : maxCnt ≤ path.cntToNextIndirect)
    (short : maxCnt ≤ stop - path.bid) : Expands s others clean path.bid stop (s.expandInBlock path.bid maxCnt) := by
  unfold expandInBlock
  rcases Ext2.allocBlocks_grabbed h.wf sep s.allocGroupIdx maxCnt pos with
    ⟨eq, less⟩ | ⟨start, stop', fs, eq, lt, le', grabbed⟩
  · rw [eq]
    refine .inl ⟨_, rfl, lt_of_lt_of_le less ?_⟩
    have cost := need_of_le_cnt valid (k := maxCnt - 1) (by omega)
    rw [Nat.sub_add_cancel pos] at cost
    exact le_trans (by omega) (need_mono short)
  rw [eq, ok_bind]
  dsimp only
  have attached := attached_block valid
  have free := blocks_free valid (le_trans le' le)
  have noMore : owned path.bid ∪ {p | p ∈ path.required} = owned path.bid := by simp [none]
  rw [noMore] at attached free
  have tree : HasTree { s with fs } (owned path.bid) clean := h.tree
  obtain ⟨s', eq', linked⟩ := setDeviceRange_linked tree valid (le_trans le' le) attached free (h.fresh grabbed)
  rw [eq']
  refine .inr ⟨_, _, rfl, by omega, by omega, ?_⟩
  refine linked_grown [] h sep valid lt (le_trans le' le) grabbed ?_
  rw [none]
  exact linked

theorem expandWithIndirect_ok {maxCnt : Nat} (some : path.required ≠ [])
    (tested : ∀ p ∈ path.required, p.Tested → p ∈ clean)
    (pos : 0 < maxCnt) (le : maxCnt ≤ path.cntToNextIndirect) (short : maxCnt ≤ stop - path.bid) :
    Expands s others clean path.bid stop (s.expandWithIndirect path.bid maxCnt path.indirectCnt) := by
  have start := Ext2.allocIndirect_ok h.wf (.nil h.wf) sep (Nat.zero_le path.indirectCnt) (Nat.lt_succ_self _) pos
    s.allocGroupIdx
  unfold expandWithIndirect
  rcases start with ⟨eq, less⟩ | ⟨indirectBids, start, stop', fs, eq, len, lt, le', grabbed⟩
  · rw [length_nil, Nat.sub_zero] at eq
    rw [eq]
    refine .inl ⟨_, rfl, lt_of_lt_of_le less ?_⟩
    have cost := need_of_le_cnt valid (k := maxCnt - 1) (by omega)
    rw [Nat.sub_add_cancel pos] at cost
    exact le_trans (by omega) (need_mono short)
  · rw [length_nil, Nat.sub_zero] at eq
    rw [eq, ok_bind]
    dsimp only
    have tree : HasTree { s with fs } (owned path.bid) clean := h.tree
    have fresh := h.fresh grabbed
    obtain ⟨s1, eq1, linked1⟩ :=
      setIndirectBids_linked valid some tree tested (len.trans path.indirectCnt_eq) fresh.head
    obtain ⟨s2, eq2, linked2⟩ := setDeviceRange_linked linked1.tree valid (le_trans le' le) (attached_block valid)
      (blocks_free valid (le_trans le' le)) (fresh.tail linked1)
    rw [eq1, ok_bind, eq2]
    exact .inr ⟨_, _, rfl, by omega, by omega,
      linked_grown indirectBids h sep valid lt (le_trans le' le) grabbed (linked1.append linked2)⟩

end

/-- The pointers that are tested for the blocks of a range. -/
def TestedIn (clean : Set Place) (start stop : Nat) : Prop :=
  ∀ p : Place, p.Valid → p.Tested → start ≤ p.first → p.first < stop → p ∈ clean

theorem tryExpandBlocks_ok {n : Nat} (h : Mapped s others (owned n) clean) (sep : s.fs.Separated) (lt : n < stop)
    (bound : stop ≤ maxBlocks) (tested : TestedIn clean n stop) :
    Expands s others clean n stop (s.tryExpandBlocks n stop) := by
  obtain ⟨path, valid, rfl⟩ := exists_path (b := n) (by omega)
  have pos := valid.cntToNextIndirect_pos
  unfold tryExpandBlocks
  rw [ofBid_of_valid valid, ok_bind]
  split
  · next zero =>
    rw [indirectCnt_eq, length_eq_zero_iff] at zero
    exact expandInBlock_ok h sep valid zero (by omega) (min_le_right _ _) (min_le_left _ _)
  · next cnt =>
    rw [indirectCnt_eq, length_eq_zero_iff] at cnt
    refine expandWithIndirect_ok h sep valid cnt (fun p mem test => ?_) (by omega) (min_le_right _ _) (min_le_left _ _)
    obtain ⟨valid', -, first⟩ := (mem_required valid).mp mem
    exact tested p valid' test (le_of_eq first.symm) (by omega)

theorem Grown.refl (h : Mapped s others (owned n) clean) (sep : s.fs.Separated) : Grown s others clean n n s :=
  ⟨h, fun _ _ => rfl, .refl s, sep, by rw [Nat.sub_self, need, add_zero], (if_neg (lt_irrefl n)).symm⟩

theorem Grown.trans {m k : Nat} (h : Grown s others clean n m s')
    (h' : Grown s' others clean m k s'') (le : n ≤ m) (le' : m ≤ k) :
    Grown s others clean n k s'' where
  mapped := h'.mapped
  same p mem := (h'.same p (owned_mono le mem)).trans (h.same p mem)
  size := h.size.trans h'.size
  separated := h'.separated
  count := by
    have cost := need_add n (m - n) (k - m)
    rw [show m - n + (k - m) = k - n by omega, show n + (m - n) = m by omega] at cost
    have := h.count
    have := h'.count
    omega
  blocks := by
    have := h.blocks
    have := h'.blocks
    split at * <;> split at * <;> split <;> omega

theorem Mapped.mono {clean' : Set Place} (h : Mapped s others used clean) (sub : clean' ⊆ clean) :
    Mapped s others used clean' :=
  ⟨h.tree.mono sub, h.wf, h.reserved, h.there, h.apart, h.inUse⟩

/-- `expand_blocks`: the file has grown, or there was too little space and it is as small as before. -/
theorem expandLoop_ok {first fuel : Nat} (h : Mapped s others (owned n) clean) (sub : cleared ⊆ clean)
    (sep : s.fs.Separated) (le : first ≤ n) (le' : n ≤ stop) (bound : stop ≤ maxBlocks)
    (tested : TestedIn clean n stop)
    (enough : stop - n ≤ fuel) :
    (∃ s', expandLoop first stop fuel s n = .ok (.ok (), s') ∧ Grown s others clean n stop s') ∨
      ∃ e s', expandLoop first stop fuel s n = .ok (.error e, s') ∧ s.fs.freeBlocksCount < need n (stop - n) ∧
        Shrunk s others first s' ∧ s'.blocksCount = first := by
  induction fuel generalizing s n with
  | zero =>
    obtain rfl : n = stop := by omega
    exact .inl ⟨s, rfl, .refl h sep⟩
  | succ fuel ih =>
    rw [expandLoop]
    split
    · next done =>
      obtain rfl : n = stop := by omega
      exact .inl ⟨s, rfl, .refl h sep⟩
    · next more =>
      rcases tryExpandBlocks_ok h sep (not_le.mp more) bound tested
        with ⟨e, eq, less⟩ | ⟨k, s1, eq, pos, short, grown⟩
      · obtain ⟨s', eq', shrunk, blocks⟩ := shrinkBlocks_ok (h.mono sub) le (by omega)
        rw [eq, ok_bind]
        dsimp only
        rw [eq']
        exact .inr ⟨_, s', rfl, less, shrunk, blocks⟩
      rw [eq]
      have tested' : TestedIn clean (n + k) stop := fun p valid test low => tested p valid test (by omega)
      rcases ih grown.mapped grown.separated (by omega) (by omega) tested' (by omega) with
        ⟨s', eq', grown'⟩ | ⟨e, s', eq', less, shrunk, blocks⟩
      · exact .inl ⟨s', eq', grown.trans grown' (by omega) (by omega)⟩
      refine .inr ⟨e, s', eq', ?_, ⟨shrunk.mapped, fun p mem => ?_, grown.size.trans shrunk.size⟩, blocks⟩
      · have cost := need_add n k (stop - (n + k))
        rw [show k + (stop - (n + k)) = stop - n by omega] at cost
        have count := grown.count
        rw [Nat.add_sub_cancel_left] at count
        omega
      · exact (shrunk.same p mem).trans (grown.same p (owned_mono le mem))

end InodeImpl

end OmegaOsx.Ext2
