import OmegaOsx.Ext2.BlockExpand

/-!
# The blocks of a file while it is resized

Runs of `resize` on one inode, while others allocate and free blocks of the same device. `Correct` is what the
source means the pointers to be: different blocks of the file lie in different device blocks, and the device blocks
in use on behalf of the inode are those of its data and its indirect blocks. It holds in all runs whose steps meet
`Fits`, and `resize` then neither panics nor moves a block that is kept. Three things can go wrong otherwise.

* An allocation that crosses from one group into the next may be longer than requested. It cannot where a block
  at every boundary of two groups is in use (`Ext2.Separated`).
* A first level below a treble indirect block that has been freed still has a pointer to it, and growing again takes
  it for one in use.
* The range reader looks up the block behind the last one it reads, which panics for a file of the largest size.

`Zeroed` says that the pointers that lead nowhere are zero. Freed blocks leave their pointers behind, so that it
survives only those shrinks that end where a double or a treble indirect block starts (`Tidy`).
-/

namespace OmegaOsx.Ext2

open PointerTree Place BidPath Set
open MlsDisk (bind_ok ok_bind exists_ok_of_map)

variable {indirectBlocks : IndirectBlockCache} {a b : InodeImpl × (Nat → Bool)}

namespace InodeImpl

variable {s s' : InodeImpl} {others : Nat → Bool} {newSize : Nat}

/-- The number of blocks of the file. -/
def blocks (s : InodeImpl) : Nat := sizeToBlocks s.size

/-- The device block of a block of the file. -/
def blockAt (s : InodeImpl) (i : Nat) : Nat := (BidPath.ofBid i).toOption.elim 0 fun path => s.locate (.block path)

/-- The blocks of a file and its indirect blocks lie in different device blocks, and these are the ones in use that
are not those of others. -/
structure Correct (s : InodeImpl) (others : Nat → Bool) : Prop where
  injective : ∀ i j, i < s.blocks → j < s.blocks → s.blockAt i = s.blockAt j → i = j
  indirect : ∀ p q, p ∈ Place.owned s.blocks → q ∈ Place.owned s.blocks → p.IsIndirect →
    s.locate p = s.locate q → p = q
  exact : ∀ bid, s.fs.used bid = true ∧ others bid = false ↔
    (∃ i < s.blocks, s.blockAt i = bid) ∨ ∃ p ∈ Place.owned s.blocks, p.IsIndirect ∧ s.locate p = bid

/-- Pointers of the inode and of its indirect blocks that lead to no block of the file are zero. -/
def Zeroed (s : InodeImpl) : Prop :=
  ∀ p : Place, p.Valid → p ∉ Place.owned s.blocks → Attached Place.shape (Place.owned s.blocks) p →
    s.locate p = 0

/-- The state of an inode between two calls. -/
structure Sound (s : InodeImpl) (others : Nat → Bool) : Prop where
  mapped : Mapped s others (Place.owned s.blocks) Place.cleared
  bound : (s.size + (BLOCK_SIZE - 1)) / BLOCK_SIZE ≤ maxBlocks
  count : s.blocks ≤ s.blocksCount

/-- The condition on a call of `resize`. -/
structure Fits (s : InodeImpl) (newSize : Nat) : Prop where
  bound : (newSize + (BLOCK_SIZE - 1)) / BLOCK_SIZE ≤ maxBlocks
  /-- A file of the largest size is not shrunk. -/
  below : sizeToBlocks newSize < s.blocks → s.blocks < maxBlocks
  separated : s.blocks < sizeToBlocks newSize → s.fs.Separated
  /-- No first level is taken up again. -/
  unused : ∀ lvl1 < 1024, .tbIndirect ∈ Place.owned s.blocks → s.blocks ≤ (Place.tbLvl1 lvl1).first →
    (Place.tbLvl1 lvl1).first < sizeToBlocks newSize → s.locate (.tbLvl1 lvl1) = 0

/-- A call that leaves no pointers behind. -/
structure Tidy (s : InodeImpl) (newSize : Nat) : Prop extends Fits s newSize where
  /-- A growth is rejected at once, or there are enough blocks for it. -/
  enough : s.blocks < sizeToBlocks newSize → s.fs.freeBlocksCount < sizeToBlocks newSize - s.blocks ∨
    need s.blocks (sizeToBlocks newSize - s.blocks) ≤ s.fs.freeBlocksCount
  /-- A shrink ends at a double or at a treble indirect block. -/
  whole : sizeToBlocks newSize < s.blocks → sizeToBlocks newSize = 1036 ∨ sizeToBlocks newSize = 1049612

variable {size : Nat} {p : Place} {others' : Nat → Bool} {fs : Ext2} {op : Op}

theorem sizeToBlocks_eq (bound : (size + (BLOCK_SIZE - 1)) / BLOCK_SIZE ≤ maxBlocks) :
    sizeToBlocks size = (size + (BLOCK_SIZE - 1)) / BLOCK_SIZE := by
  refine Nat.mod_eq_of_lt (lt_of_le_of_lt bound ?_)
  decide

theorem sizeToBlocks_mono {size' : Nat} (le : size ≤ size')
    (bound : (size' + (BLOCK_SIZE - 1)) / BLOCK_SIZE ≤ maxBlocks) : sizeToBlocks size ≤ sizeToBlocks size' := by
  have small : (size + (BLOCK_SIZE - 1)) / BLOCK_SIZE ≤ (size' + (BLOCK_SIZE - 1)) / BLOCK_SIZE :=
    Nat.div_le_div_right (Nat.add_le_add_right le _)
  rw [sizeToBlocks_eq bound, sizeToBlocks_eq (le_trans small bound)]
  exact small

theorem Sound.blocks_le (h : Sound s others) : s.blocks ≤ maxBlocks := by
  rw [blocks, sizeToBlocks_eq h.bound]
  exact h.bound

theorem blockAt_eq {path : BidPath} (s : InodeImpl) (valid : path.Valid) :
    s.blockAt path.bid = s.locate (.block path) := by
  rw [blockAt, ofBid_of_valid valid]
  rfl

theorem Sound.correct (h : Sound s others) : Correct s others := by
  have bound := h.blocks_le
  have place : ∀ i < s.blocks, ∃ path : BidPath, path.bid = i ∧ .block path ∈ owned s.blocks ∧
      s.blockAt i = s.locate (.block path) := by
    intro i lt
    obtain ⟨path, valid, rfl⟩ := exists_path (b := i) (by omega)
    exact ⟨path, rfl, ⟨valid, lt⟩, s.blockAt_eq valid⟩
  refine ⟨fun i j lt lt' eq => ?_, fun p q mem mem' _ eq => h.mapped.tree.inj p mem q mem' eq, fun bid => ?_⟩
  · obtain ⟨path, rfl, mem, at'⟩ := place i lt
    obtain ⟨path', rfl, mem', at''⟩ := place j lt'
    rw [at', at''] at eq
    exact congrArg first (h.mapped.tree.inj _ mem _ mem' eq)
  rw [h.mapped.inUse]
  constructor
  · rintro ⟨other | ⟨p, mem, rfl⟩, mine⟩
    · exact absurd (other.symm.trans mine) (by decide)
    · cases p with
      | block path => exact .inl ⟨path.bid, mem.2, s.blockAt_eq mem.1⟩
      | _ => exact .inr ⟨_, mem, trivial, rfl⟩
  · rintro (⟨i, lt, rfl⟩ | ⟨p, mem, -, rfl⟩)
    · obtain ⟨path, -, mem, at'⟩ := place i lt
      rw [at']
      exact ⟨.inr ⟨_, mem, rfl⟩, h.mapped.apart _ mem⟩
    · exact ⟨.inr ⟨p, mem, rfl⟩, h.mapped.apart p mem⟩

/-! ### One call -/

/-- What a call of `resize` does: it succeeds, or lacks space and leaves the file as large as it was. -/
structure Resized (s : InodeImpl) (others : Nat → Bool) (newSize : Nat) (result : Except Error Unit)
    (s' : InodeImpl) : Prop where
  sound : Sound s' others
  same : ∀ p ∈ Place.owned (min s.blocks s'.blocks), s'.locate p = s.locate p
  alike : Ext2.Alike s.fs s'.fs
  size : s'.size = match result with
    | .ok _ => newSize
    | .error _ => s.size

theorem descBlocksCount_ok (count : s.blocks ≤ s.blocksCount) : s.descBlocksCount = .ok s.blocks := by
  unfold descBlocksCount
  rw [require_of _ (show sizeToBlocks s.size ≤ s.blocksCount from count)]
  rfl

theorem updateSize_ok (count : sizeToBlocks newSize ≤ s.blocksCount) :
    s.updateSize newSize = .ok { s with size := newSize } := by
  have eq : descBlocksCount { s with size := newSize } = .ok (sizeToBlocks newSize) := descBlocksCount_ok count
  unfold updateSize
  dsimp only
  rw [eq]
  rfl

/-- The clean pointers of a growth. -/
def testedPlaces (n m : Nat) : Set Place :=
  Place.cleared ∪ {p | ∃ lvl1 < 1024, p = .tbLvl1 lvl1 ∧ n ≤ p.first ∧ p.first < m}

theorem testedIn_testedPlaces (n m : Nat) : TestedIn (testedPlaces n m) n m := by
  intro p valid tested low high
  cases p with
  | dbIndirect => exact .inl (.inl rfl)
  | tbIndirect => exact .inl (.inr rfl)
  | tbLvl1 lvl1 => exact .inr ⟨lvl1, valid, rfl, low, high⟩
  | _ => exact tested.elim

theorem Sound.tested (h : Sound s others) (fits : Fits s newSize) :
    Mapped s others (owned s.blocks) (testedPlaces s.blocks (sizeToBlocks newSize)) := by
  obtain ⟨tree, wf, reserved, there, apart, inUse⟩ := h.mapped
  refine ⟨tree.congr (fun _ _ => rfl) ?_, wf, reserved, there, apart, inUse⟩
  rintro p (mem | ⟨lvl1, lt, rfl, low, high⟩) valid free attached
  · exact tree.clean p mem valid free attached
  · exact fits.unused lvl1 lt (attached _ rfl) low high

/-- The same blocks under another size. -/
theorem Mapped.withSize {used clean : Set Place} (h : Mapped s others used clean) (size : Nat) :
    Mapped { s with size } others used clean := by
  obtain ⟨tree, wf, reserved, there, apart, inUse⟩ := h
  exact ⟨tree, wf, reserved, there, apart, inUse⟩

section

variable (h : Sound s others) (fits : Fits s newSize)
include h fits

/-- `expand`; what is clean before a growth that succeeds is clean after it. -/
theorem expand_ok {clean : Set Place} (larger : s.size < newSize)
    (mapped : Mapped s others (owned s.blocks) clean) (sub : cleared ⊆ clean)
    (tested : TestedIn clean s.blocks (sizeToBlocks newSize)) :
    ∃ result s', s.expand newSize = .ok (result, s') ∧ Resized s others newSize result s' ∧
      (s' = s ∨ s.fs.freeBlocksCount < need s.blocks (sizeToBlocks newSize - s.blocks) ∧
      s.blocks < sizeToBlocks newSize ∧
          sizeToBlocks newSize - s.blocks ≤ s.fs.freeBlocksCount ∨
        Mapped s' others (owned s'.blocks) clean) := by
  have mono : s.blocks ≤ sizeToBlocks newSize := sizeToBlocks_mono (le_of_lt larger) fits.bound
  unfold expand
  rw [descBlocksCount_ok h.count, ok_bind]
  dsimp only
  split
  · next small =>
    have same : sizeToBlocks newSize = s.blocks := le_antisymm small mono
    rw [updateSize_ok (same ▸ h.count)]
    have mapped' : ∀ {clean}, Mapped s others (owned s.blocks) clean →
        Mapped { s with size := newSize } others (owned (sizeToBlocks newSize)) clean := fun mapped =>
      same ▸ mapped.withSize newSize
    exact ⟨_, _, rfl, ⟨⟨mapped' h.mapped, fits.bound,
      show sizeToBlocks newSize ≤ s.blocksCount from same ▸ h.count⟩,
      fun _ _ => rfl, .refl _, rfl⟩, .inr (.inr (mapped' mapped))⟩
  · next large =>
    split
    · exact ⟨_, _, rfl, ⟨h, fun _ _ => rfl, .refl _, rfl⟩, .inl rfl⟩
    · next space =>
      have bound : sizeToBlocks newSize ≤ maxBlocks := by
        rw [sizeToBlocks_eq fits.bound]
        exact fits.bound
      rcases expandLoop_ok mapped sub (fits.separated (not_le.mp large)) le_rfl mono bound tested le_rfl with
        ⟨s', eq, grown⟩ | ⟨e, s', eq, less, shrunk, count⟩
      · have blocks : s'.blocksCount = sizeToBlocks newSize := by rw [grown.blocks, if_pos (not_le.mp large)]
        unfold expandBlocks
        rw [eq, ok_bind]
        rw [updateSize_ok (le_of_eq blocks.symm)]
        have mapped' := grown.mapped.withSize newSize
        refine ⟨_, _, rfl, ⟨⟨mapped'.mono sub, fits.bound, le_of_eq blocks.symm⟩, fun p mem => ?_,
          grown.size.alike, rfl⟩,
          .inr (.inr mapped')⟩
        exact grown.same p (owned_mono (min_le_left _ _) mem)
      · have size : s'.size = s.size := shrunk.size.size
        have blocks : s'.blocks = s.blocks := congrArg sizeToBlocks size
        unfold expandBlocks
        rw [eq]
        refine ⟨_, _, rfl, ⟨⟨?_, size ▸ h.bound, ?_⟩, fun p mem => ?_, shrunk.size.alike, size⟩,
          .inr (.inl ⟨less, not_le.mp large, not_lt.mp space⟩)⟩
        · rw [blocks]
          exact shrunk.mapped
        · rw [blocks, count]
        · exact shrunk.same p (owned_mono (min_le_left _ _) mem)

theorem shrink_ok (smaller : newSize ≤ s.size) :
    ∃ s', s.shrink newSize = .ok s' ∧ Resized s others newSize (.ok ()) s' ∧
      (sizeToBlocks newSize = s.blocks → s' = { s with size := newSize }) := by
  have mono : sizeToBlocks newSize ≤ s.blocks := sizeToBlocks_mono smaller h.bound
  unfold shrink
  rw [descBlocksCount_ok h.count, ok_bind]
  dsimp only
  split
  · next fewer =>
    obtain ⟨s', eq, shrunk, count⟩ := shrinkBlocks_ok h.mapped mono (fits.below fewer)
    rw [eq, ok_bind, updateSize_ok (le_of_eq count.symm)]
    refine ⟨_, rfl, ⟨⟨shrunk.mapped.withSize newSize, fits.bound, le_of_eq count.symm⟩, fun p mem => ?_,
      shrunk.size.alike, rfl⟩,
      fun same => absurd same (ne_of_lt fewer)⟩
    exact shrunk.same p (owned_mono (min_le_right _ _) mem)
  · next equal =>
    have same : sizeToBlocks newSize = s.blocks := by omega
    rw [updateSize_ok (same ▸ h.count)]
    have mapped : Mapped { s with size := newSize } others (owned (sizeToBlocks newSize)) cleared :=
      same ▸ h.mapped.withSize newSize
    exact ⟨_, rfl, ⟨⟨mapped, fits.bound, show sizeToBlocks newSize ≤ s.blocksCount from same ▸ h.count⟩,
      fun _ _ => rfl, .refl _, rfl⟩, fun _ => rfl⟩

theorem resize_ok : ∃ result s', s.resize newSize = .ok (result, s') ∧ Resized s others newSize result s' := by
  unfold resize
  split
  · next larger =>
    obtain ⟨result, s', eq, resized, -⟩ := expand_ok h fits larger (h.tested fits) subset_union_left
      (testedIn_testedPlaces _ _)
    exact ⟨result, s', eq, resized⟩
  · next smaller =>
    obtain ⟨s', eq, resized, -⟩ := shrink_ok h fits (not_lt.mp smaller)
    rw [eq]
    exact ⟨_, s', rfl, resized⟩

/-! ### Pointers that lead nowhere -/

end

theorem Sound.zeroed (h : Sound s others) (zeroed : Zeroed s) : Mapped s others (owned s.blocks) univ := by
  obtain ⟨tree, wf, reserved, there, apart, inUse⟩ := h.mapped
  exact ⟨tree.congr (fun _ _ => rfl) fun p _ => zeroed p, wf, reserved, there, apart, inUse⟩

theorem Mapped.isZeroed (h : Mapped s others (owned s.blocks) univ) : Zeroed s :=
  fun p => h.tree.clean p (mem_univ p)

/-- Where a double or a treble indirect block starts, no other pointers are left. -/
theorem mem_cleared_of_whole {n : Nat} (whole : n = 1036 ∨ n = 1049612) (valid : p.Valid)
    (free : p ∉ owned n) (attached : Attached shape (owned n) p) : p ∈ cleared := by
  have late : n ≤ p.first := not_lt.mp fun lt => free ⟨valid, lt⟩
  have parent : ∀ q, p.parent = some q → q.first < n := fun q eq => (attached q eq).2
  simp only [first] at late parent
  cases p with
  | block path =>
    cases path with
    | direct idx =>
      have : idx < 12 := valid
      simp only [firstPath, bid] at late
      omega
    | indirect idx =>
      have : idx < 1024 := valid
      simp only [firstPath, bid] at late
      omega
    | dbIndirect lvl1 lvl2 =>
      obtain ⟨h1, h2⟩ : lvl1 < 1024 ∧ lvl2 < 1024 := valid
      have := parent _ rfl
      simp only [firstPath, bid] at late this
      omega
    | tbIndirect lvl1 lvl2 lvl3 =>
      have := parent _ rfl
      simp only [firstPath, bid] at this
      omega
  | indirect =>
    simp only [firstPath, bid] at late
    omega
  | dbIndirect => exact .inl rfl
  | dbLvl1 lvl1 =>
    have : lvl1 < 1024 := valid
    have := parent _ rfl
    simp only [firstPath, bid] at late this
    omega
  | tbIndirect => exact .inr rfl
  | tbLvl1 lvl1 =>
    have := parent _ rfl
    simp only [firstPath, bid] at this
    omega
  | tbLvl2 lvl1 lvl2 =>
    have := parent _ rfl
    simp only [firstPath, bid] at this
    omega

theorem resize_tidy (h : Sound s others) (zeroed : Zeroed s) (tidy : Tidy s newSize) {result : Except Error Unit}
    (eq : s.resize newSize = .ok (result, s')) : Zeroed s' := by
  unfold resize at eq
  split at eq
  · next larger =>
    obtain ⟨result', s'', eq', -, after⟩ := expand_ok h tidy.toFits larger (h.zeroed zeroed) (subset_univ _)
      fun p _ _ _ _ => mem_univ p
    cases eq'.symm.trans eq
    rcases after with rfl | ⟨less, grows, space⟩ | mapped
    · exact zeroed
    · rcases tidy.enough grows with few | many
      · omega
      · omega
    · exact mapped.isZeroed
  · next smaller =>
    obtain ⟨s'', eq', resized, same⟩ := shrink_ok h tidy.toFits (not_lt.mp smaller)
    rw [eq'] at eq
    cases eq
    by_cases fewer : sizeToBlocks newSize < s.blocks
    · have blocks : s'.blocks = sizeToBlocks newSize := congrArg sizeToBlocks resized.size
      intro p valid free attached
      refine resized.sound.mapped.tree.clean p ?_ valid free attached
      rw [blocks] at free attached
      exact mem_cleared_of_whole (tidy.whole fewer) valid free attached
    · have mono : sizeToBlocks newSize ≤ s.blocks := sizeToBlocks_mono (not_lt.mp smaller) h.bound
      have equal : sizeToBlocks newSize = s.blocks := by omega
      cases same equal
      intro p valid free attached
      change p ∉ owned (sizeToBlocks newSize) at free
      change Attached shape (owned (sizeToBlocks newSize)) p at attached
      rw [equal] at free attached
      exact zeroed p valid free attached

/-! ### Runs -/

inductive Op
  | resize (newSize : Nat)
  /-- Others allocate, free and write blocks; blocks of the cache are written back. -/
  | elsewhere

/-- What others do leaves the blocks of the inode alone. -/
structure Elsewhere (s : InodeImpl) (others : Nat → Bool) (fs : Ext2) (indirectBlocks : IndirectBlockCache)
    (others' : Nat → Bool) : Prop where
  wf : fs.WF
  hasBlock : ∀ bid, fs.HasBlock bid ↔ s.fs.HasBlock bid
  reserved : others' 0 = true
  theirs : ∀ bid, others' bid = true → fs.used bid = true
  mine : ∀ bid, fs.used bid = true ∧ others' bid = false ↔ s.fs.used bid = true ∧ others bid = false
  content : ∀ bid, s.fs.used bid = true → others bid = false → indirectBlocks.find bid = s.indirectBlocks.find bid

inductive Step : InodeImpl × (Nat → Bool) → Op → InodeImpl × (Nat → Bool) → Prop
  | resize {s s' : InodeImpl} {others : Nat → Bool} {newSize : Nat} {result : Except Error Unit}
      (eq : s.resize newSize = .ok (result, s')) : Step (s, others) (.resize newSize) (s', others)
  | elsewhere {s : InodeImpl} {others others' : Nat → Bool} {fs : Ext2} {indirectBlocks : IndirectBlockCache}
      (h : Elsewhere s others fs indirectBlocks others') :
      Step (s, others) .elsewhere ({ s with fs, indirectBlocks }, others')

/-- A step that meets a condition on its call. -/
def StepIf (cond : InodeImpl → Nat → Prop) (a : InodeImpl × (Nat → Bool)) (op : Op)
    (b : InodeImpl × (Nat → Bool)) : Prop :=
  (∀ newSize, op = .resize newSize → cond a.1 newSize) ∧ Step a op b

theorem Elsewhere.same (h : Elsewhere s others fs indirectBlocks others')
    (sound : Sound s others) (attached : Attached shape (owned s.blocks) p) :
    locate { s with fs, indirectBlocks } p = s.locate p := by
  refine s.located.congr (located { s with fs, indirectBlocks }) (owned_closed s.blocks) (fun _ => True)
    (fun _ _ => trivial) (fun q _ attached => ?_) trivial attached
  change Store.read _ (q.parent.map s.locate) q.slot = s.store.read (q.parent.map s.locate) q.slot
  cases eq : q.parent with
  | none => rfl
  | some r =>
    have mem := attached r eq
    exact congrFun (h.content _ (sound.mapped.taken mem).2 (sound.mapped.apart r mem)) q.slot

theorem Elsewhere.sound (h : Elsewhere s others fs indirectBlocks others')
    (sound : Sound s others) : Sound { s with fs, indirectBlocks } others' := by
  have same : ∀ p, Attached shape (owned s.blocks) p → locate { s with fs, indirectBlocks } p = s.locate p :=
    fun p => h.same sound
  have same' : ∀ p ∈ owned s.blocks, locate { s with fs, indirectBlocks } p = s.locate p := fun p mem =>
    same p (owned_closed _ p mem)
  have tree := sound.mapped.tree
  refine ⟨⟨tree.congr same' fun p mem valid free attached => ?_, h.wf, h.reserved, fun p mem => ?_, fun p mem => ?_,
    fun bid => ?_⟩, sound.bound, sound.count⟩
  · rw [same p attached]
    exact tree.clean p mem valid free attached
  · rw [same' p mem]
    exact (h.hasBlock _).mpr (sound.mapped.there p mem)
  · rw [same' p mem]
    exact ((h.mine _).mpr ⟨(sound.mapped.taken mem).2, sound.mapped.apart p mem⟩).2
  constructor
  · intro inUse
    cases other : others' bid with
    | true => exact .inl rfl
    | false =>
      obtain ⟨inUse', mine⟩ := (h.mine bid).mp ⟨inUse, other⟩
      rcases (sound.mapped.inUse bid).mp inUse' with theirs | ⟨p, mem, eq⟩
      · exact absurd (theirs.symm.trans mine) (by decide)
      · exact .inr ⟨p, mem, (same' p mem).trans eq⟩
  · rintro (other | ⟨p, mem, rfl⟩)
    · exact h.theirs bid other
    · rw [same' p mem]
      exact ((h.mine _).mpr ⟨(sound.mapped.taken mem).2, sound.mapped.apart p mem⟩).1

theorem StepIf.sound (sound : Sound a.1 a.2) (step : StepIf Fits a op b) : Sound b.1 b.2 := by
  obtain ⟨fits, step⟩ := step
  cases step with
  | resize eq =>
    obtain ⟨result, s', eq', resized⟩ := resize_ok sound (fits _ rfl)
    cases eq'.symm.trans eq
    exact resized.sound
  | elsewhere h => exact h.sound sound

theorem StepIf.zeroed (sound : Sound a.1 a.2) (zeroed : Zeroed a.1) (step : StepIf Tidy a op b) : Zeroed b.1 := by
  obtain ⟨tidy, step⟩ := step
  cases step with
  | resize eq => exact resize_tidy sound zeroed (tidy _ rfl) eq
  | elsewhere h =>
    intro p valid free attached
    have attached' : Attached shape (owned _) p := attached
    rw [h.same sound attached']
    exact zeroed p valid free attached'

/-- In a run whose calls fit, the pointers of the file are correct in every state reached, and a further call that fits
returns, with the pointers correct again and the blocks it keeps where they were. If the calls leave no pointers behind,
the pointers that lead nowhere are zero as well. -/
theorem resize_keeps_mapping {s0 : InodeImpl} {others0 : Nat → Bool} {ops : List Op} (init : Sound s0 others0) :
    (Labelled.Run (StepIf Fits) (s0, others0) ops (s, others) → Correct s others ∧
        ∀ newSize, Fits s newSize → ∃ result s', s.resize newSize = .ok (result, s') ∧ Correct s' others ∧
          (∀ i, i < s.blocks → i < s'.blocks → s'.blockAt i = s.blockAt i) ∧
          s'.blocks = if result.isOk then sizeToBlocks newSize else s.blocks) ∧
    (Labelled.Run (StepIf Tidy) (s0, others0) ops (s, others) → Zeroed s0 → Zeroed s) := by
  have fit : ∀ a op b, StepIf Tidy a op b → StepIf Fits a op b := fun a op b step =>
    ⟨fun newSize eq => (step.1 newSize eq).toFits, step.2⟩
  refine ⟨fun run => ?_, fun run zeroed => ?_⟩
  · have keep : ∀ a op b, Sound a.1 a.2 → StepIf Fits a op b → Sound b.1 b.2 :=
      fun _ _ _ sound step => step.sound sound
    have sound : Sound s others := run.invariant keep init
    refine ⟨sound.correct, fun newSize fits => ?_⟩
    obtain ⟨result, s', eq, resized⟩ := resize_ok sound fits
    refine ⟨result, s', eq, resized.sound.correct, fun i lt lt' => ?_, ?_⟩
    · obtain ⟨path, valid, rfl⟩ := exists_path (b := i) (by have := sound.blocks_le; omega)
      rw [blockAt_eq _ valid, blockAt_eq _ valid]
      exact resized.same _ ⟨valid, Nat.lt_min.mpr ⟨lt, lt'⟩⟩
    · have size := congrArg sizeToBlocks resized.size
      cases result with
      | ok => exact size
      | error e => exact size
  · have keep : ∀ a op b, Sound a.1 a.2 ∧ Zeroed a.1 → StepIf Tidy a op b → Sound b.1 b.2 ∧ Zeroed b.1 :=
      fun a op b inv step => ⟨(fit a op b step).sound inv.1, step.zeroed inv.1 inv.2⟩
    exact (run.invariant keep ⟨init, zeroed⟩).2

/-- A new inode. -/
def new (fs : Ext2) (groupIdx : Nat) (disk : Nat → Nat → Nat) : InodeImpl where
  fs := fs
  groupIdx := groupIdx
  size := 0
  blocksCount := 0
  blockPtrs _ := 0
  indirectBlocks := ⟨fun _ => none, disk⟩
  lastAllocDeviceBid := none

theorem new_blocks (fs : Ext2) (groupIdx : Nat) (disk : Nat → Nat → Nat) : (new fs groupIdx disk).blocks = 0 :=
  show sizeToBlocks 0 = 0 by decide

theorem new_owns_nothing {groupIdx : Nat} {disk : Nat → Nat → Nat} (p : Place) :
    p ∉ owned (new fs groupIdx disk).blocks := by
  intro mem
  have lt := mem.2
  rw [new_blocks] at lt
  exact absurd lt (Nat.not_lt_zero _)

theorem new_zeroed (fs : Ext2) (groupIdx : Nat) (disk : Nat → Nat → Nat) : Zeroed (new fs groupIdx disk) := by
  intro p _ _ attached
  rw [located _ p]
  cases eq : shape.parent p with
  | none => rfl
  | some q => exact absurd (attached q eq) (new_owns_nothing q)

/-- The pointers of a new inode are correct, if the first block of the device is in use. -/
theorem new_sound (wf : fs.WF) (reserved : fs.used 0 = true) (groupIdx : Nat) (disk : Nat → Nat → Nat) :
    Sound (new fs groupIdx disk) fs.used := by
  have none : ∀ p, p ∉ owned (new fs groupIdx disk).blocks := new_owns_nothing
  refine ⟨⟨⟨?_, ?_, ?_, ?_,
    fun p _ valid free attached => new_zeroed fs groupIdx disk p valid free attached⟩, wf, reserved,
    ?_, ?_, fun bid => ?_⟩, show (0 + (BLOCK_SIZE - 1)) / BLOCK_SIZE ≤ maxBlocks by decide,
    le_of_eq (new_blocks fs groupIdx disk)⟩
  · exact fun p mem => absurd mem (none p)
  · exact fun p mem => absurd mem (none p)
  · exact fun p mem => absurd mem (none p)
  · exact fun p mem => absurd mem (none p)
  · exact fun p mem => absurd mem (none p)
  · exact fun p mem => absurd mem (none p)
  · exact ⟨.inl, fun h => h.elim id fun ⟨p, mem, _⟩ => absurd mem (none p)⟩

/-- A group in which the first block, the last one and an inode are in use. -/
def smallGroup : GroupMetadata where
  blockBitmap := { len := 20, bits := fun i => decide (i = 0 ∨ i = 19), firstAvailableId := 1 }
  freeBlocksCount := 18
  inodeBitmap := { len := 1, bits := fun i => decide (i = 0), firstAvailableId := 1 }
  freeInodesCount := 0
  dirsCount := 0

/-- A device of one group. -/
def oneGroup : Ext2 where
  blocksPerGroup := 20
  inodesPerGroup := 1
  numGroups := 1
  blockGroups _ := smallGroup
  freeBlocksCount := 18
  freeInodesCount := 0

theorem smallGroup_wf : smallGroup.WF := by
  refine ⟨⟨by decide⟩, by decide, by decide, fun i le => decide_eq_false ?_⟩
  have le : 20 ≤ i := le
  omega

theorem oneGroup_wf : oneGroup.WF where
  pos := by decide
  group _ _ := smallGroup_wf
  le _ _ := le_refl 20
  full _ _ := rfl
  total := by decide
  count := by decide

def smallInode : InodeImpl := new oneGroup 0 fun _ _ => 0

/-- Calls fit where the device has one group and the file no double indirect block. -/
theorem fits_of_few {newSize : Nat} (groups : s.fs.numGroups = 1) (few : s.blocks ≤ 1036)
    (bound : (newSize + (BLOCK_SIZE - 1)) / BLOCK_SIZE ≤ maxBlocks) : Fits s newSize where
  bound := bound
  below _ := lt_of_le_of_lt few (by decide)
  separated _ g lt := absurd lt (by rw [groups]; omega)
  unused _ _ mem := absurd (lt_of_lt_of_le mem.2 few) (by decide)

/-- A file gets two blocks and then fourteen, with an indirect block, and leaves no pointers behind;
then it gives up one. -/
theorem resize_keeps_mapping_smallInode : ∃ s,
    Labelled.Run (StepIf Tidy) (smallInode, oneGroup.used) [.resize 8192, .resize 57344] (s, oneGroup.used) ∧
      Correct s oneGroup.used ∧ Zeroed s ∧ s.blocks = 14 ∧ s.blockPtrs 12 ≠ 0 ∧
      ∃ s', s.resize 53248 = .ok (.ok (), s') ∧ Correct s' oneGroup.used ∧ s'.blocks = 13 ∧
        s'.blockAt 12 = s.blockAt 12 := by
  have sound : Sound smallInode oneGroup.used := new_sound oneGroup_wf (by decide) 0 _
  obtain ⟨⟨⟨_, r⟩, ⟨_, s⟩, ⟨_, s'⟩⟩, h, seen⟩ := exists_ok_of_map
    (x := do
      let r ← smallInode.resize 8192
      let s ← r.2.resize 57344
      pure (r, s, ← s.2.resize 53248))
    (f := fun x => ((x.1.2.blocks, x.1.2.fs.numGroups, x.1.2.fs.freeBlocksCount),
      (x.2.1.2.blocks, x.2.1.2.fs.numGroups, x.2.1.2.blockPtrs 12), x.2.2.1, x.2.2.2.blocks))
    (b := ((2, 1, 16), (14, 1, 13), .ok (), 13)) (by decide +kernel)
  obtain ⟨_, grow, h⟩ := bind_ok.mp h
  obtain ⟨_, more, h⟩ := bind_ok.mp h
  obtain ⟨_, fewer, h⟩ := bind_ok.mp h
  cases h
  simp only [Prod.mk.injEq] at seen
  obtain ⟨⟨two, groups, free⟩, ⟨fourteen, groups', indirect⟩, rfl, thirteen⟩ := seen
  have tidy : Tidy smallInode 8192 :=
    ⟨fits_of_few rfl (by decide) (by decide), fun _ => .inr (by decide), fun fewer => absurd fewer (by decide)⟩
  have tidy' : Tidy r 57344 := by
    refine ⟨fits_of_few groups (by rw [two]; decide) (by decide), fun _ => .inr ?_, fun fewer => absurd fewer ?_⟩
    · rw [two, free]
      decide
    · rw [two]
      decide
  have run : Labelled.Run (StepIf Tidy) (smallInode, oneGroup.used) [.resize 8192, .resize 57344] (s, oneGroup.used) :=
    .cons ⟨fun _ same => by cases same; exact tidy, .resize grow⟩
      (.single ⟨fun _ same => by cases same; exact tidy', .resize more⟩)
  obtain ⟨mapping, tidied⟩ := @resize_keeps_mapping s oneGroup.used smallInode oneGroup.used _ sound
  obtain ⟨correct, next⟩ := mapping (run.mono fun _ _ _ step => ⟨fun _ same => (step.1 _ same).toFits, step.2⟩)
  obtain ⟨_, _, eq, correct', same, -⟩ := next 53248 (fits_of_few groups' (by rw [fourteen]; decide) (by decide))
  cases eq.symm.trans fewer
  exact ⟨s, run, correct, tidied run (new_zeroed _ _ _), fourteen, by rw [indirect]; decide, s',
    fewer, correct', thirteen,
    same 12 (by omega) (by omega)⟩

/-- The second block of a file is freed, and its pointer stays. -/
theorem shrink_leaves_pointer : ∃ s s', smallInode.resize 8192 = .ok (.ok (), s) ∧
    s.resize 4096 = .ok (.ok (), s') ∧
    s'.blocks = 1 ∧ s'.fs.used (s'.blockAt 1) = false ∧ s'.blockPtrs 1 ≠ 0 ∧ ¬ Zeroed s' := by
  have seen : (smallInode.resize 8192).toOption.map (fun a => (a.1, (a.2.resize 4096).toOption.map fun b =>
      (b.1, b.2.blocks, b.2.fs.used (b.2.blockAt 1), b.2.blockPtrs 1))) =
      some (.ok (), some (.ok (), 1, false, 2)) := by
    decide +kernel
  obtain ⟨⟨done, s⟩, grow, both⟩ := exists_ok_of_map seen
  obtain ⟨rfl, second⟩ := Prod.mk.inj both
  obtain ⟨⟨done, s'⟩, shrink, values⟩ := exists_ok_of_map second
  simp only [Prod.mk.injEq] at values
  obtain ⟨rfl, blocks, free, ptr⟩ := values
  have ne : s'.blockPtrs 1 ≠ 0 := by rw [ptr]; decide
  refine ⟨s, s', grow, shrink, blocks, free, ne, fun zeroed => ne ?_⟩
  refine zeroed (.block (.direct 1)) (show 1 < 12 by decide) (fun mem => ?_) (attached_root _ rfl)
  have lt := mem.2
  rw [blocks] at lt
  exact absurd lt (by decide)

end InodeImpl

end OmegaOsx.Ext2
