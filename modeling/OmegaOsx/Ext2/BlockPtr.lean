import OmegaOsx.Ext2.IdAlloc
import OmegaOsx.Lib.PointerTree

/-!
# Block pointers

`BidPath` of `ext2/block_ptr.rs`: how the pointer to a block of a file is found, and the places of the tree of
pointers that these paths go through. A place is named by what its pointer leads to: a block of the file or
an indirect block. `Place.first` is the first block of the file whose path goes through the place, so that a file of
`n` blocks owns the places with `first < n` (`owned`).
-/

namespace OmegaOsx.Ext2

open PointerTree

def BLOCK_SIZE : Nat := 4096

def BID_SIZE : Nat := 4

def MAX_DIRECT_BLOCKS : Nat := 12

/-- The slot of the indirect pointer. -/
def INDIRECT : Nat := MAX_DIRECT_BLOCKS

def MAX_INDIRECT_BLOCKS : Nat := BLOCK_SIZE / BID_SIZE

def DB_INDIRECT : Nat := INDIRECT + 1

def MAX_DB_INDIRECT_BLOCKS : Nat := MAX_INDIRECT_BLOCKS * MAX_INDIRECT_BLOCKS

def TB_INDIRECT : Nat := DB_INDIRECT + 1

def MAX_TB_INDIRECT_BLOCKS : Nat := MAX_INDIRECT_BLOCKS * MAX_DB_INDIRECT_BLOCKS

inductive BidPath
  | direct (idx : Nat)
  | indirect (idx : Nat)
  | dbIndirect (lvl1 lvl2 : Nat)
  | tbIndirect (lvl1 lvl2 lvl3 : Nat)
  deriving DecidableEq, Repr

namespace BidPath

/-- `BidPath::from`. -/
def ofBid (bid : Nat) : Res BidPath :=
  if bid < MAX_DIRECT_BLOCKS then .ok (direct bid)
  else if bid < MAX_DIRECT_BLOCKS + MAX_INDIRECT_BLOCKS then .ok (indirect (bid - MAX_DIRECT_BLOCKS))
  else if bid < MAX_DIRECT_BLOCKS + MAX_INDIRECT_BLOCKS + MAX_DB_INDIRECT_BLOCKS then
    let dbIndirectBid := bid - (MAX_DIRECT_BLOCKS + MAX_INDIRECT_BLOCKS)
    .ok (dbIndirect (dbIndirectBid / MAX_INDIRECT_BLOCKS) (dbIndirectBid % MAX_INDIRECT_BLOCKS))
  else if bid < MAX_DIRECT_BLOCKS + MAX_INDIRECT_BLOCKS + MAX_DB_INDIRECT_BLOCKS + MAX_TB_INDIRECT_BLOCKS then
    let tbIndirectBid := bid - (MAX_DIRECT_BLOCKS + MAX_INDIRECT_BLOCKS + MAX_DB_INDIRECT_BLOCKS)
    .ok (tbIndirect (tbIndirectBid / MAX_DB_INDIRECT_BLOCKS) (tbIndirectBid / MAX_INDIRECT_BLOCKS % MAX_INDIRECT_BLOCKS)
      (tbIndirectBid % MAX_INDIRECT_BLOCKS))
  else panicWith "internal error: entered unreachable code"

def lastLvlIdx : BidPath → Nat
  | direct idx => idx
  | indirect idx => idx
  | dbIndirect _ idx => idx
  | tbIndirect _ _ idx => idx

def cntToNextIndirect : BidPath → Nat
  | direct idx => MAX_DIRECT_BLOCKS - idx
  | indirect idx => MAX_INDIRECT_BLOCKS - idx
  | dbIndirect _ idx => MAX_INDIRECT_BLOCKS - idx
  | tbIndirect _ _ idx => MAX_INDIRECT_BLOCKS - idx

/-- The block of the file that the path leads to. -/
def bid : BidPath → Nat
  | direct idx => idx
  | indirect idx => 12 + idx
  | dbIndirect lvl1 lvl2 => 1036 + 1024 * lvl1 + lvl2
  | tbIndirect lvl1 lvl2 lvl3 => 1049612 + 1048576 * lvl1 + 1024 * lvl2 + lvl3

def Valid : BidPath → Prop
  | direct idx => idx < 12
  | indirect idx => idx < 1024
  | dbIndirect lvl1 lvl2 => lvl1 < 1024 ∧ lvl2 < 1024
  | tbIndirect lvl1 lvl2 lvl3 => lvl1 < 1024 ∧ lvl2 < 1024 ∧ lvl3 < 1024

/-- The path to a block further on in the same last block of pointers. -/
def skip : BidPath → Nat → BidPath
  | direct idx, k => direct (idx + k)
  | indirect idx, k => indirect (idx + k)
  | dbIndirect lvl1 lvl2, k => dbIndirect lvl1 (lvl2 + k)
  | tbIndirect lvl1 lvl2 lvl3, k => tbIndirect lvl1 lvl2 (lvl3 + k)

end BidPath

/-- One more than the last block a path leads to. -/
def maxBlocks : Nat := 1074791436

variable {path : BidPath}

namespace BidPath

theorem ofBid_of_valid (h : path.Valid) : ofBid path.bid = .ok path := by
  unfold ofBid
  simp only [show MAX_DIRECT_BLOCKS = 12 from rfl, show MAX_INDIRECT_BLOCKS = 1024 from rfl,
    show MAX_DB_INDIRECT_BLOCKS = 1048576 from rfl, show MAX_TB_INDIRECT_BLOCKS = 1073741824 from rfl]
  cases path with
  | direct idx => exact if_pos h
  | indirect idx =>
    change idx < 1024 at h
    rw [if_neg (by simp [bid]), if_pos (by simp only [bid]; omega)]
    simp [bid]
  | dbIndirect lvl1 lvl2 =>
    obtain ⟨h1, h2⟩ := h
    rw [if_neg (by simp only [bid]; omega), if_neg (by simp only [bid]; omega), if_pos (by simp only [bid]; omega)]
    simp only [bid]
    rw [show (1036 + 1024 * lvl1 + lvl2 - (12 + 1024)) / 1024 = lvl1 by omega,
      show (1036 + 1024 * lvl1 + lvl2 - (12 + 1024)) % 1024 = lvl2 by omega]
  | tbIndirect lvl1 lvl2 lvl3 =>
    obtain ⟨h1, h2, h3⟩ := h
    rw [if_neg (by simp only [bid]; omega), if_neg (by simp only [bid]; omega), if_neg (by simp only [bid]; omega),
      if_pos (by simp only [bid]; omega)]
    simp only [bid]
    generalize rest : 1049612 + 1048576 * lvl1 + 1024 * lvl2 + lvl3 - (12 + 1024 + 1048576) = n
    rw [show n / 1048576 = lvl1 by omega, show n / 1024 % 1024 = lvl2 by omega, show n % 1024 = lvl3 by omega]

theorem Valid.bid_lt (h : path.Valid) : path.bid < maxBlocks := by
  unfold maxBlocks
  cases path with
  | direct idx =>
    change idx < 12 at h
    simp only [bid]
    omega
  | indirect idx =>
    change idx < 1024 at h
    simp only [bid]
    omega
  | dbIndirect lvl1 lvl2 =>
    obtain ⟨h1, h2⟩ := h
    simp only [bid]
    omega
  | tbIndirect lvl1 lvl2 lvl3 =>
    obtain ⟨h1, h2, h3⟩ := h
    simp only [bid]
    omega

theorem exists_path {b : Nat} (lt : b < maxBlocks) : ∃ path : BidPath, path.Valid ∧ path.bid = b := by
  unfold maxBlocks at lt
  by_cases h12 : b < 12
  · exact ⟨direct b, h12, rfl⟩
  by_cases h1036 : b < 1036
  · exact ⟨indirect (b - 12), show b - 12 < 1024 by omega, by simp only [bid]; omega⟩
  by_cases hdb : b < 1049612
  · exact ⟨dbIndirect ((b - 1036) / 1024) ((b - 1036) % 1024), ⟨by omega, by omega⟩, by simp only [bid]; omega⟩
  · exact ⟨tbIndirect ((b - 1049612) / 1048576) ((b - 1049612) / 1024 % 1024) ((b - 1049612) % 1024),
      ⟨by omega, by omega, by omega⟩, by simp only [bid]; omega⟩

theorem Valid.eq_of_bid {path' : BidPath} (h : path.Valid) (h' : path'.Valid) (eq : path.bid = path'.bid) :
    path = path' := by
  have := ofBid_of_valid h
  rw [eq, ofBid_of_valid h'] at this
  exact (Except.ok.inj this).symm

theorem bid_skip (path : BidPath) (k : Nat) : (path.skip k).bid = path.bid + k := by
  cases path <;> simp only [skip, bid] <;> omega

theorem Valid.skip {k : Nat} (h : path.Valid) (lt : k < path.cntToNextIndirect) : (path.skip k).Valid := by
  cases path with
  | direct idx =>
    have inside : k < 12 - idx := lt
    change idx + k < 12
    omega
  | indirect idx =>
    have inside : k < 1024 - idx := lt
    change idx + k < 1024
    omega
  | dbIndirect lvl1 lvl2 =>
    have inside : k < 1024 - lvl2 := lt
    exact ⟨h.1, by omega⟩
  | tbIndirect lvl1 lvl2 lvl3 =>
    have inside : k < 1024 - lvl3 := lt
    exact ⟨h.1, h.2.1, by omega⟩

end BidPath

/-- The places of the tree, named by what their pointers lead to. -/
inductive Place
  | block (path : BidPath)
  | indirect
  | dbIndirect
  | dbLvl1 (lvl1 : Nat)
  | tbIndirect
  | tbLvl1 (lvl1 : Nat)
  | tbLvl2 (lvl1 lvl2 : Nat)
  deriving DecidableEq, Repr

variable {p : Place}

namespace Place

def Valid : Place → Prop
  | block path => path.Valid
  | dbLvl1 lvl1 => lvl1 < 1024
  | tbLvl1 lvl1 => lvl1 < 1024
  | tbLvl2 lvl1 lvl2 => lvl1 < 1024 ∧ lvl2 < 1024
  | _ => True

/-- The place whose block the pointer lies in, if it is not one of the inode's own. -/
def parent : Place → Option Place
  | block (.direct _) => none
  | block (.indirect _) => some indirect
  | block (.dbIndirect lvl1 _) => some (dbLvl1 lvl1)
  | block (.tbIndirect lvl1 lvl2 _) => some (tbLvl2 lvl1 lvl2)
  | indirect => none
  | dbIndirect => none
  | dbLvl1 _ => some dbIndirect
  | tbIndirect => none
  | tbLvl1 _ => some tbIndirect
  | tbLvl2 lvl1 _ => some (tbLvl1 lvl1)

def slot : Place → Nat
  | block path => path.lastLvlIdx
  | indirect => 12
  | dbIndirect => 13
  | dbLvl1 lvl1 => lvl1
  | tbIndirect => 14
  | tbLvl1 lvl1 => lvl1
  | tbLvl2 _ lvl2 => lvl2

def height : Place → Nat
  | block _ => 3
  | tbLvl2 _ _ => 2
  | tbLvl1 _ => 1
  | dbLvl1 _ => 1
  | _ => 0

/-- The path of the first block of the file whose pointer is found through the place. -/
def firstPath : Place → BidPath
  | block path => path
  | indirect => .indirect 0
  | dbIndirect => .dbIndirect 0 0
  | dbLvl1 lvl1 => .dbIndirect lvl1 0
  | tbIndirect => .tbIndirect 0 0 0
  | tbLvl1 lvl1 => .tbIndirect lvl1 0 0
  | tbLvl2 lvl1 lvl2 => .tbIndirect lvl1 lvl2 0

def first (p : Place) : Nat := p.firstPath.bid

/-- Whether an indirect block is meant. -/
def IsIndirect : Place → Prop
  | block _ => False
  | _ => True

variable {q : Place}

theorem height_parent (h : p.parent = some q) : q.height < p.height := by
  unfold parent at h
  split at h <;> cases h <;> simp [height]

theorem slot_inj (hp : p.Valid) (hq : q.Valid) (parents : p.parent = q.parent) (slots : p.slot = q.slot) : p = q := by
  cases p with
  | block path =>
    cases q with
    | block path' =>
      cases path <;> cases path' <;> simp_all [parent, slot, BidPath.lastLvlIdx]
    | _ => cases path <;> simp_all [parent, slot, BidPath.lastLvlIdx, Valid, BidPath.Valid]
  | _ =>
    cases q with
    | block path => cases path <;> simp_all [parent, slot, BidPath.lastLvlIdx, Valid, BidPath.Valid] <;> omega
    | _ => simp_all [parent, slot]

def shape : Shape Place Nat where
  valid := {p | p.Valid}
  parent := parent
  slot := slot
  height := height
  height_parent := height_parent
  slot_inj := slot_inj

/-- The pointer at a place. -/
def locate (st : Store Nat Nat) : Place → Nat
  | block (.direct idx) => st.root idx
  | block (.indirect idx) => st.block (st.root 12) idx
  | block (.dbIndirect lvl1 lvl2) => st.block (st.block (st.root 13) lvl1) lvl2
  | block (.tbIndirect lvl1 lvl2 lvl3) => st.block (st.block (st.block (st.root 14) lvl1) lvl2) lvl3
  | indirect => st.root 12
  | dbIndirect => st.root 13
  | dbLvl1 lvl1 => st.block (st.root 13) lvl1
  | tbIndirect => st.root 14
  | tbLvl1 lvl1 => st.block (st.root 14) lvl1
  | tbLvl2 lvl1 lvl2 => st.block (st.block (st.root 14) lvl1) lvl2

theorem located (st : Store Nat Nat) : Located shape st (locate st) := by
  intro p
  cases p with
  | block path => cases path <;> rfl
  | _ => rfl

theorem parent_first (valid : p.Valid) (h : p.parent = some q) : q.Valid ∧ q.first ≤ p.first := by
  unfold parent at h
  split at h <;> cases h <;> simp_all [Valid, BidPath.Valid, first, firstPath, BidPath.bid]

theorem Valid.firstPath (valid : p.Valid) : p.firstPath.Valid := by
  cases p <;> simp_all [Valid, BidPath.Valid, Place.firstPath]

/-- What a file of `n` blocks owns. -/
def owned (n : Nat) : Set Place := {p | p.Valid ∧ p.first < n}

theorem owned_closed (n : Nat) : ∀ p ∈ owned n, Attached shape (owned n) p := by
  intro p mem q eq
  obtain ⟨valid, le⟩ := parent_first mem.1 eq
  exact ⟨valid, lt_of_le_of_lt le mem.2⟩

theorem owned_mono {m n : Nat} (le : m ≤ n) : owned m ⊆ owned n := fun _ mem => ⟨mem.1, lt_of_lt_of_le mem.2 le⟩

end Place

namespace BidPath

/-- The indirect blocks that the first block of a last block of pointers needs, from the inode on. -/
def required : BidPath → List Place
  | direct _ => []
  | indirect 0 => [.indirect]
  | indirect (_ + 1) => []
  | dbIndirect 0 0 => [.dbIndirect, .dbLvl1 0]
  | dbIndirect (lvl1 + 1) 0 => [.dbLvl1 (lvl1 + 1)]
  | dbIndirect _ (_ + 1) => []
  | tbIndirect 0 0 0 => [.tbIndirect, .tbLvl1 0, .tbLvl2 0 0]
  | tbIndirect (lvl1 + 1) 0 0 => [.tbLvl1 (lvl1 + 1), .tbLvl2 (lvl1 + 1) 0]
  | tbIndirect lvl1 (lvl2 + 1) 0 => [.tbLvl2 lvl1 (lvl2 + 1)]
  | tbIndirect _ _ (_ + 1) => []

theorem mem_required (h : path.Valid) : p ∈ path.required ↔ p.Valid ∧ p.IsIndirect ∧ p.first = path.bid := by
  constructor
  · intro mem
    unfold required at mem
    split at mem <;> simp only [List.mem_cons, List.not_mem_nil] at mem <;>
      rcases mem with rfl | rfl | rfl | rfl | rfl <;>
      simp_all [Valid, Place.Valid, Place.IsIndirect, Place.first, Place.firstPath]
  · rintro ⟨valid, isIndirect, eq⟩
    obtain rfl : p.firstPath = path := valid.firstPath.eq_of_bid h eq
    cases p with
    | block => exact isIndirect.elim
    | dbLvl1 lvl1 => cases lvl1 <;> simp [Place.firstPath, required]
    | tbLvl1 lvl1 => cases lvl1 <;> simp [Place.firstPath, required]
    | tbLvl2 lvl1 lvl2 => cases lvl1 <;> cases lvl2 <;> simp [Place.firstPath, required]
    | _ => simp [Place.firstPath, required]

theorem lastLvlIdx_skip (path : BidPath) (k : Nat) : (path.skip k).lastLvlIdx = path.lastLvlIdx + k := by
  cases path <;> rfl

end BidPath

namespace Place

theorem IsIndirect.lastLvlIdx (h : p.IsIndirect) : p.firstPath.lastLvlIdx = 0 := by
  cases p with
  | block => exact h.elim
  | _ => rfl

/-- What a file owns after it has grown within a last block of pointers. -/
theorem mem_owned_add (h : path.Valid) {k : Nat} (pos : 0 < k) (le : k ≤ path.cntToNextIndirect) :
    p ∈ owned (path.bid + k) ↔ p ∈ owned path.bid ∨ p ∈ path.required ∨
    ∃ j < k, p = block (path.skip j) := by
  rw [BidPath.mem_required h]
  constructor
  · rintro ⟨valid, lt⟩
    by_cases before : p.first < path.bid
    · exact .inl ⟨valid, before⟩
    have inside : p.first - path.bid < path.cntToNextIndirect := by omega
    have same : p.firstPath = path.skip (p.first - path.bid) :=
      valid.firstPath.eq_of_bid (h.skip inside) (by rw [BidPath.bid_skip]; change p.first = _; omega)
    by_cases isIndirect : p.IsIndirect
    · -- Only the first block of a block of pointers needs new indirect blocks.
      have zero := isIndirect.lastLvlIdx
      rw [same, BidPath.lastLvlIdx_skip] at zero
      exact .inr (.inl ⟨valid, isIndirect, by omega⟩)
    · cases p with
      | block path' => exact .inr (.inr ⟨_, by omega, congrArg block same⟩)
      | _ => exact (isIndirect trivial).elim
  · rintro (mem | ⟨valid, -, eq⟩ | ⟨j, lt, rfl⟩)
    · exact owned_mono (Nat.le_add_right _ _) mem
    · exact ⟨valid, by omega⟩
    refine ⟨h.skip (by omega), ?_⟩
    change (path.skip j).bid < _
    rw [BidPath.bid_skip]
    omega

end Place

end OmegaOsx.Ext2
