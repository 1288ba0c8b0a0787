import Mathlib.Algebra.Group.Nat.Defs
import Mathlib.Data.List.Range

/-!
# Radix trees

A tree whose nodes have `n` slots finds a key by its digits to the base `n`, the highest first. Keys
that agree from digit `k` on lie in the same slot of a node for digit `k`. `occupied` counts the slots of
a node that hold something.
-/

namespace Radix

open List Function

variable {n : Nat}

/-- Digit `k` of a key. -/
def digit (n k key : Nat) : Nat := key / n ^ k % n

theorem div_pow_succ (k key : Nat) : key / n ^ (k + 1) = key / n ^ k / n := by
  rw [pow_succ, Nat.div_div_eq_div_mul]

theorem digit_lt (pos : 0 < n) (k key : Nat) : digit n k key < n := Nat.mod_lt _ pos

variable {k a b m i lo count : Nat}

/-- Keys agree from digit `k` on exactly if they agree above it and there. -/
theorem div_pow_eq_iff : a / n ^ k = b / n ^ k ↔ a / n ^ (k + 1) = b / n ^ (k + 1) ∧ digit n k a = digit n k b := by
  rw [div_pow_succ, div_pow_succ, digit, digit]
  constructor
  · intro same
    rw [same]
    exact ⟨rfl, rfl⟩
  · rintro ⟨above, here⟩
    rw [← Nat.div_add_mod (a / n ^ k) n, above, here, Nat.div_add_mod]

theorem div_pow_mono (le : k ≤ m) (same : a / n ^ k = b / n ^ k) : a / n ^ m = b / n ^ m := by
  induction le with
  | refl => exact same
  | step _ ih => rw [div_pow_succ, div_pow_succ, ih]

theorem digit_congr (le : k ≤ m) (same : a / n ^ k = b / n ^ k) : digit n m a = digit n m b :=
  (div_pow_eq_iff.mp (div_pow_mono le same)).2

/-- The keys of a slot follow one another. -/
theorem div_pow_eq_of_between {c : Nat} (le : a ≤ b) (le' : b ≤ c) (same : a / n ^ k = c / n ^ k) :
    b / n ^ k = a / n ^ k :=
  le_antisymm (same ▸ Nat.div_le_div_right le') (Nat.div_le_div_right le)

/-! ### Where slots start and stop -/

/-- The first key after the slot of a key for digit `k`. -/
def slotStop (n k key : Nat) : Nat := key / n ^ k * n ^ k + n ^ k

theorem slotStop_eq (k key : Nat) : slotStop n k key = (key / n ^ k + 1) * n ^ k := by
  rw [slotStop, Nat.add_mul, one_mul]

theorem div_pow_eq_iff_between (pos : 0 < n) : a / n ^ k = b / n ^ k ↔ b / n ^ k * n ^ k ≤ a ∧
    a < slotStop n k b := by
  rw [Nat.div_eq_iff (Nat.pow_pos pos), slotStop]
  have := Nat.pow_pos pos (n := k)
  omega

theorem lt_slotStop (pos : 0 < n) (k key : Nat) : key < slotStop n k key := ((div_pow_eq_iff_between pos).mp rfl).2

theorem slotStop_mono_key (k : Nat) (le : a ≤ b) : slotStop n k a ≤ slotStop n k b :=
  Nat.add_le_add_right (Nat.mul_le_mul_right _ (Nat.div_le_div_right le)) _

/-- The slots for lower digits lie inside those for higher ones. -/
theorem slotStop_mono (pos : 0 < n) (le : k ≤ m) (key : Nat) : slotStop n k key ≤ slotStop n m key := by
  obtain ⟨d, rfl⟩ := Nat.exists_eq_add_of_le le
  have inside := lt_slotStop pos (k + d) key
  rw [slotStop_eq, pow_add, mul_comm (n ^ k), ← mul_assoc] at inside
  rw [slotStop_eq k, slotStop_eq (k + d), pow_add, mul_comm (n ^ k), ← mul_assoc]
  exact Nat.mul_le_mul_right _ (Nat.div_lt_of_lt_mul (by rwa [mul_comm]))

theorem slotStop_div (pos : 0 < n) (k key : Nat) : slotStop n k key / n ^ k = key / n ^ k + 1 := by
  rw [slotStop_eq, Nat.mul_div_cancel _ (Nat.pow_pos pos)]

/-- Where the next slot is the first of its node, the node ends as well. -/
theorem slotStop_succ_of_zero (pos : 0 < n) {key : Nat} (first : digit n k (slotStop n k key) = 0) :
    slotStop n k key = slotStop n (k + 1) key := by
  rw [digit, slotStop_div pos] at first
  have dvd : n ∣ key / n ^ k + 1 := Nat.dvd_of_mod_eq_zero first
  have next : (key / n ^ k + 1) / n = key / n ^ k / n + 1 := by rw [Nat.succ_div, if_pos dvd]
  rw [slotStop_eq, slotStop_eq, div_pow_succ, ← next, pow_succ', ← mul_assoc, Nat.div_mul_cancel dvd]

/-- Where it is not, the next slot is in the same node. -/
theorem slotStop_same_of_pos (pos : 0 < n) {key : Nat} (later : digit n k (slotStop n k key) ≠ 0) :
    slotStop n k key / n ^ (k + 1) = key / n ^ (k + 1) := by
  rw [digit, slotStop_div pos] at later
  rw [div_pow_succ, div_pow_succ, slotStop_div pos, Nat.succ_div, if_neg, add_zero]
  intro dvd
  exact later (Nat.mod_eq_zero_of_dvd dvd)

/-! ### Occupied slots -/

variable {α : Type*} {p : α → Bool} {slots : Nat → α}

/-- The number of occupied slots among `count` from `lo` on. -/
def occupied (p : α → Bool) (slots : Nat → α) (lo count : Nat) : Nat :=
  (List.range' lo count).countP fun i => p (slots i)

theorem countP_update {a : α} {l : List Nat} (nodup : l.Nodup) (mem : i ∈ l) :
    l.countP (fun j => p (update slots i a j)) + (p (slots i)).toNat =
      l.countP (fun j => p (slots j)) + (p a).toNat := by
  induction l with
  | nil => cases mem
  | cons j l ih =>
    obtain ⟨fresh, nodup⟩ := nodup_cons.mp nodup
    rw [countP_cons, countP_cons]
    rcases mem_cons.mp mem with rfl | mem
    · have rest : l.countP (fun j => p (update slots i a j)) = l.countP fun j => p (slots j) := by
        refine countP_congr fun j inRest => ?_
        rw [update_of_ne]
        rintro rfl
        exact fresh inRest
      rw [rest, update_self]
      cases p a <;> cases p (slots i) <;> simp
    · have other : j ≠ i := by
        rintro rfl
        exact fresh mem
      rw [update_of_ne other]
      have := ih nodup mem
      omega

/-- How the count changes when one slot does. -/
theorem occupied_update {a : α} (le : lo ≤ i) (lt : i < lo + count) :
    occupied p (update slots i a) lo count + (p (slots i)).toNat = occupied p slots lo count + (p a).toNat :=
  countP_update nodup_range' (mem_range'_1.mpr ⟨le, lt⟩)

theorem occupied_eq_count
    (full : ∀ i, lo ≤ i → i < lo + count → p (slots i) = true) : count = occupied p slots lo count := by
  have all : (range' lo count).countP (fun i => p (slots i)) = (range' lo count).length := by
    rw [countP_eq_length]
    intro i mem
    obtain ⟨le, lt⟩ := mem_range'_1.mp mem
    exact full i le lt
  rw [occupied, all, length_range']

theorem occupied_pos (le : lo ≤ i) (lt : i < lo + count) (here : p (slots i) = true) :
    0 < occupied p slots lo count :=
  countP_pos_iff.mpr ⟨i, mem_range'_1.mpr ⟨le, lt⟩, here⟩

end Radix
