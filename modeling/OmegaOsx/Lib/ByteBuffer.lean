import Mathlib.Data.List.Basic

/-!
# Buffers

A buffer as a function from positions, read by `slice` and changed by `write`. A slice does not see a write
that is apart from it, and a write is read back as it was made.
-/

namespace ByteBuffer

open List

variable {α : Type*}

/-- The `len` elements from `off` on. -/
def slice (b : Nat → α) (off len : Nat) : List α := (List.range' off len).map b

/-- The buffer with `bs` from `off` on. -/
def write (b : Nat → α) (off : Nat) (bs : List α) (i : Nat) : α :=
  if off ≤ i then bs[i - off]?.getD (b i) else b i

variable {b b' : Nat → α} {off off' len len' i : Nat} {bs : List α}

@[simp] theorem length_slice (b : Nat → α) (off len : Nat) : (slice b off len).length = len := by
  rw [slice, length_map, length_range']

theorem slice_eq_iff : slice b off len = slice b' off len ↔ ∀ i, off ≤ i → i < off + len → b i = b' i := by
  unfold slice
  rw [map_inj_left]
  constructor
  · intro same i le lt
    exact same i (mem_range'_1.mpr ⟨le, lt⟩)
  · intro same i mem
    obtain ⟨le, lt⟩ := mem_range'_1.mp mem
    exact same i le lt

theorem slice_add (b : Nat → α) (off len len' : Nat) :
    slice b off (len + len') = slice b off len ++ slice b (off + len) len' := by
  rw [slice, slice, slice, ← map_append, range'_append_1]

/-- A part of a slice is a slice. -/
theorem take_drop_slice (b : Nat → α) (off : Nat) (le : i + len ≤ len') :
    ((slice b off len').drop i).take len = slice b (off + i) len := by
  obtain ⟨rest, rfl⟩ : ∃ rest, len' = i + (len + rest) := ⟨len' - i - len, by omega⟩
  rw [slice_add, drop_left' (length_slice b off i), slice_add, take_left' (length_slice b (off + i) len)]

theorem write_of_not_mem (h : ¬ (off ≤ i ∧ i < off + bs.length)) : write b off bs i = b i := by
  unfold write
  split
  · next le => rw [getElem?_eq_none (by omega), Option.getD_none]
  · rfl

theorem write_at (lt : i < bs.length) : write b off bs (off + i) = bs[i] := by
  unfold write
  rw [if_pos (Nat.le_add_right _ _), Nat.add_sub_cancel_left, getElem?_eq_getElem lt, Option.getD_some]

theorem slice_write (b : Nat → α) (off : Nat) (bs : List α) : slice (write b off bs) off bs.length = bs := by
  refine ext_getElem (length_slice _ _ _) fun i lt lt' => ?_
  simp only [slice, getElem_map, getElem_range', Nat.one_mul]
  exact write_at lt'

theorem slice_write_part (b : Nat → α) (off : Nat) (le : i + len ≤ bs.length) :
    slice (write b off bs) (off + i) len = (bs.drop i).take len := by
  rw [← take_drop_slice _ _ le, slice_write]

theorem slice_write_of_apart (apart : off' + len ≤ off ∨ off + bs.length ≤ off') :
    slice (write b off bs) off' len = slice b off' len :=
  slice_eq_iff.mpr fun i le lt => write_of_not_mem (by omega)

end ByteBuffer
