import Mathlib.Data.Set.Basic

/-!
# Sets of capabilities

`CapSet` of `credentials/capabilities.rs`: a 64-bit word of which the bits up to `CHECKPOINT_RESTORE` may be set. The
capabilities a set holds are its bits; what the word operations do to them is stated once here, so that later proofs
speak of capabilities only.
-/

namespace OmegaOsx.Credentials

def mostSignificantBit : Nat := 40

/-- `CapSet::MASK`, which is also `CapSet::all().bits()`. -/
def capMask : BitVec 64 := (1#64 <<< (mostSignificantBit + 1)) - 1#64

/-- A set of Linux capabilities. No other bit of the word is set. -/
@[ext] structure CapSet where
  bits : BitVec 64
  valid : bits &&& ~~~capMask = 0#64
  deriving DecidableEq

namespace CapSet

theorem empty_valid : 0#64 &&& ~~~capMask = 0#64 := BitVec.zero_and

theorem truncate_valid (word : BitVec 64) : word &&& capMask &&& ~~~capMask = 0#64 := by
  rw [BitVec.and_assoc]
  exact BitVec.and_zero

theorem diff_valid (c d : CapSet) : c.bits &&& ~~~d.bits &&& ~~~capMask = 0#64 := by
  rw [BitVec.and_assoc, BitVec.and_comm (~~~d.bits), ← BitVec.and_assoc, c.valid, BitVec.zero_and]

def empty : CapSet := ⟨0#64, empty_valid⟩

/-- `from_bits_truncate`: bits that are no capability are dropped. -/
def fromBitsTruncate (word : BitVec 64) : CapSet := ⟨word &&& capMask, truncate_valid word⟩

/-- The difference of `bitflags`. -/
def diff (c d : CapSet) : CapSet := ⟨c.bits &&& ~~~d.bits, diff_valid c d⟩

/-- All capabilities of `d` are in `c`. -/
def contains (c d : CapSet) : Bool := c.bits &&& d.bits == d.bits

def setpcap : CapSet := fromBitsTruncate (1#64 <<< 8)

/-- The union that `set_fsuid_unchecked` removes: `CHOWN`, `DAC_OVERRIDE`, `FOWNER`, `DAC_READ_SEARCH`, `FSETID`,
`LINUX_IMMUTABLE`, `MAC_OVERRIDE` and `MKNOD`. -/
def fileSystem : CapSet :=
  fromBitsTruncate (1#64 <<< 0 ||| 1#64 <<< 1 ||| 1#64 <<< 3 ||| 1#64 <<< 2 ||| 1#64 <<< 4 ||| 1#64 <<< 9 |||
    1#64 <<< 32 ||| 1#64 <<< 27)

/-! ### The capabilities of a set -/

instance instMembership : Membership Nat CapSet := ⟨fun c i => c.bits.getLsbD i = true⟩

instance instHasSubset : HasSubset CapSet := ⟨fun c d => ∀ i ∈ c, i ∈ d⟩

/-- The two sets have no capability in common. -/
def Apart (c d : CapSet) : Prop := ∀ i ∈ c, i ∉ d

variable {c d e : CapSet}

theorem mem_def {i : Nat} : i ∈ c ↔ c.bits.getLsbD i = true := Iff.rfl

theorem subset_def : c ⊆ d ↔ ∀ i ∈ c, i ∈ d := Iff.rfl

@[simp] theorem not_mem_empty {i : Nat} : i ∉ empty := by
  simp [mem_def, empty]

@[simp] theorem mem_diff {i : Nat} : i ∈ c.diff d ↔ i ∈ c ∧ i ∉ d := by
  simp only [mem_def, diff, BitVec.getLsbD_and, BitVec.getLsbD_not, Bool.and_eq_true, Bool.not_eq_true',
    decide_eq_true_eq, Bool.not_eq_true]
  constructor
  · rintro ⟨mem, -, other⟩
    exact ⟨mem, other⟩
  · rintro ⟨mem, other⟩
    exact ⟨mem, BitVec.lt_of_getLsbD mem, other⟩

theorem eq_of_mem_iff (same : ∀ i, i ∈ c ↔ i ∈ d) : c = d := by
  refine CapSet.ext (BitVec.eq_of_getLsbD_eq fun i _ => ?_)
  exact Bool.eq_iff_iff.mpr (same i)

theorem eq_empty_iff : c = empty ↔ ∀ i, i ∉ c := by
  constructor
  · rintro rfl i
    exact not_mem_empty
  · intro none
    exact eq_of_mem_iff fun i => iff_of_false (none i) not_mem_empty

theorem contains_iff : c.contains d = true ↔ d ⊆ c := by
  rw [contains, beq_iff_eq]
  constructor
  · intro eq i mem
    rw [mem_def, ← eq, BitVec.getLsbD_and, Bool.and_eq_true] at mem
    exact mem.1
  · intro sub
    refine BitVec.eq_of_getLsbD_eq fun i _ => ?_
    rw [BitVec.getLsbD_and, Bool.and_eq_right_iff_imp]
    exact sub i

instance instDecidableSubset (c d : CapSet) : Decidable (c ⊆ d) := decidable_of_iff (d.contains c = true) contains_iff

theorem subset_refl (c : CapSet) : c ⊆ c := fun _ mem => mem

theorem subset_trans (h : c ⊆ d) (h' : d ⊆ e) : c ⊆ e := fun i mem => h' i (h i mem)

theorem empty_subset : empty ⊆ c := fun _ mem => absurd mem not_mem_empty

theorem diff_subset : c.diff d ⊆ c := fun _ mem => (mem_diff.mp mem).1

theorem diff_apart : (c.diff d).Apart d := fun _ mem => (mem_diff.mp mem).2

theorem diff_eq_empty_iff : c.diff d = empty ↔ c ⊆ d := by
  simp only [eq_empty_iff, mem_diff, not_and, Classical.not_not, subset_def]

end CapSet

end OmegaOsx.Credentials
