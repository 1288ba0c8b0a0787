import Mathlib.Algebra.Order.BigOperators.Group.Finset

/-!
# What the members of a family hold

A family has finitely many members and each holds a multiset, read off its state. `total` is what
they hold together. `total_update` says how it changes when one member changes, and `disjoint_of_nodup`
that members share nothing when nothing is held twice.
-/

namespace Holdings

open Function Finset Multiset

variable {ι α β : Type*} [Fintype ι] [DecidableEq ι] (held : ι → α → Multiset β)

def total (f : ι → α) : Multiset β := ∑ i, held i (f i)

/-- What member `i` held goes out and what it holds now comes in. -/
theorem total_update (f : ι → α) (i : ι) (a : α) :
    held i (f i) + total held (update f i a) = held i a + total held f := by
  have rest : ∑ j ∈ univ.erase i, held j (update f i a j) = ∑ j ∈ univ.erase i, held j (f j) :=
    sum_congr rfl fun j mem => by rw [update_of_ne (ne_of_mem_erase mem)]
  unfold total
  rw [← add_sum_erase _ _ (mem_univ i), ← add_sum_erase _ _ (mem_univ i), rest, update_self, add_left_comm]

/-- The same when the change is given by what comes in, `a`, and what goes out, `b`. -/
theorem total_update_of_eq {f : ι → α} {i : ι} {x : α} {a b : Multiset β} (h : held i (f i) + a = held i x + b) :
    total held f + a = total held (update f i x) + b := by
  apply add_left_cancel
  calc held i (f i) + (total held f + a) = total held f + (held i (f i) + a) := add_left_comm _ _ _
    _ = held i x + total held f + b := by rw [h, ← add_assoc, add_comm (held i x)]
    _ = held i (f i) + (total held (update f i x) + b) := by
      rw [← total_update, add_assoc]

omit [DecidableEq ι] in
theorem le_total (f : ι → α) (i : ι) : held i (f i) ≤ total held f :=
  single_le_sum (fun _ _ => zero_le _) (mem_univ i)

theorem disjoint_of_nodup {f : ι → α} (nodup : (total held f).Nodup) {i j : ι} (ne : i ≠ j) :
    Disjoint (held i (f i)) (held j (f j)) := by
  unfold total at nodup
  rw [← add_sum_erase _ _ (mem_univ i), ← add_sum_erase _ _ (mem_erase.mpr ⟨ne.symm, mem_univ j⟩)] at nodup
  exact (disjoint_add_right.mp (nodup_add.mp nodup).2.2).1

end Holdings
