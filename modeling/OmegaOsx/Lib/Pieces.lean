import Mathlib.Data.List.Forall2

/-!
# A list covered piece by piece

`piece c i ds` is the `i`-th piece of `ds` when it is cut into pieces of `c` elements.
`Covers R c es ds` says that the elements of `es` stand for these pieces, in order, where `R` relates
an element to its piece. Covers can be cut, joined and grouped at multiples of `c`; grouping `b`
elements at a time gives covers by pieces of `b * c` elements. A list written down element by element
has these elements as its pieces (`piece_flatMap`).
-/

namespace Pieces

open List

variable {α β γ : Type*}

def piece (c i : Nat) (ds : List β) : List β := (ds.drop (i * c)).take c

structure Covers (R : α → List β → Prop) (c : Nat) (es : List α) (ds : List β) : Prop where
  count : ∀ i, i < es.length ↔ i * c < ds.length
  each : ∀ i e, es[i]? = some e → R e (piece c i ds)

variable {R : α → List β → Prop} {c k : Nat} {es es' : List α} {ds : List β}

theorem piece_drop (c i j : Nat) (ds : List β) : piece c i (ds.drop (j * c)) = piece c (j + i) ds := by
  rw [piece, piece, drop_drop, Nat.add_mul]

variable {i : Nat} {f : α → List β} {e : α}

/-- A piece that lies before `k` is not changed by cutting the list there. -/
theorem piece_take (before : (i + 1) * c ≤ k) : piece c i (ds.take k) = piece c i ds := by
  rw [Nat.add_mul] at before
  rw [piece, piece, drop_take, take_take, Nat.min_eq_left (by omega)]

theorem length_piece (c i : Nat) (ds : List β) : (piece c i ds).length = min c (ds.length - i * c) := by
  simp [piece]

/-- Only the last piece can be short. -/
theorem length_piece_of_le (full : (i + 1) * c ≤ ds.length) : (piece c i ds).length = c := by
  rw [Nat.add_mul] at full
  rw [length_piece, Nat.min_eq_left (by omega)]

theorem length_flatMap_const (size : ∀ a, (f a).length = c) (es : List α) :
    (es.flatMap f).length = es.length * c := by
  induction es with
  | nil => exact (Nat.zero_mul c).symm
  | cons e es ih => rw [flatMap_cons, length_append, ih, size, length_cons, Nat.succ_mul, Nat.add_comm]

/-- Elements written one after the other in `c` places each are the pieces of what is written. -/
theorem piece_flatMap (size : ∀ a, (f a).length = c)
    (at_i : es[i]? = some e) (more : List β) : piece c i (es.flatMap f ++ more) = f e := by
  induction es generalizing i with
  | nil => cases at_i
  | cons a es ih =>
    rw [flatMap_cons, append_assoc]
    cases i with
    | zero =>
      cases at_i
      rw [piece, Nat.zero_mul, drop_zero, take_left' (size _)]
    | succ i =>
      have tail : piece c (1 + i) (f a ++ (es.flatMap f ++ more)) = piece c i (es.flatMap f ++ more) := by
        rw [← piece_drop, Nat.one_mul, drop_left' (size a)]
      rw [Nat.add_comm i 1, tail]
      exact ih at_i

theorem Covers.nil (R : α → List β → Prop) (c : Nat) : Covers R c [] ([] : List β) where
  count := by simp
  each := by simp

theorem Covers.mono {R' : α → List β → Prop} (h : Covers R c es ds) (weaken : ∀ e d, R e d → R' e d) :
    Covers R' c es ds :=
  ⟨h.count, fun i e at_i => weaken e _ (h.each i e at_i)⟩

/-- Other elements for the same pieces. -/
theorem Covers.of_forall₂ {R' : γ → List β → Prop} {S : α → γ → Prop} {gs : List γ}
    (h : Covers R c es ds) (related : List.Forall₂ S es gs)
    (step : ∀ e g d, R e d → S e g → R' g d) : Covers R' c gs ds := by
  refine ⟨fun i => by rw [← related.length_eq]; exact h.count i, fun i g at_i => ?_⟩
  obtain ⟨inside, rfl⟩ := List.getElem?_eq_some_iff.mp at_i
  have inside' : i < es.length := by rw [related.length_eq]; exact inside
  exact step _ _ _ (h.each i _ (getElem?_eq_getElem inside')) (related.get inside' inside)

/-- Elements that stand for one element each. -/
theorem covers_one {es : List α} {ds : List β} (length_eq : es.length = ds.length)
    (each : ∀ (i : Nat) e d, es[i]? = some e → ds[i]? = some d → R e [d]) : Covers R 1 es ds := by
  refine ⟨fun i => by rw [Nat.mul_one, length_eq], fun i e at_i => ?_⟩
  have inside : i < ds.length := by
    rw [← length_eq]; exact (List.getElem?_eq_some_iff.mp at_i).1
  have : piece 1 i ds = [ds[i]] := by
    rw [piece, Nat.mul_one, drop_eq_getElem_cons inside, take_succ_cons, take_zero]
  rw [this]
  exact each i e ds[i] at_i (getElem?_eq_getElem inside)

theorem covers_singleton (covers : R e ds) (some : 0 < ds.length) (fits : ds.length ≤ c) : Covers R c [e] ds := by
  refine ⟨fun i => ?_, fun i e' at_i => ?_⟩
  · cases i with
    | zero => simpa using some
    | succ i =>
      rw [length_singleton, Nat.add_mul]
      omega
  · obtain ⟨rfl, rfl⟩ : i = 0 ∧ e = e' := by simpa [getElem?_singleton] using at_i
    rw [piece, Nat.zero_mul, drop_zero, take_of_length_le fits]
    exact covers

/-- The number of elements of a cover, up to a multiple of `c`. -/
theorem Covers.length_of_mul (h : Covers R c es ds) (pos : 0 < c) {n : Nat}
    (length_eq : ds.length = n * c) : es.length = n := by
  have below := h.count es.length
  have at_n := h.count n
  rw [length_eq] at below at_n
  have not_gt : ¬ es.length < n := fun gt =>
    Nat.lt_irrefl _ (below.mpr ((Nat.mul_lt_mul_right pos).mpr gt))
  omega

theorem Covers.take (h : Covers R c es ds) (pos : 0 < c) (n : Nat) : Covers R c (es.take n) (ds.take (n * c)) := by
  refine ⟨fun i => ?_, fun i e at_i => ?_⟩
  · rw [length_take, length_take, Nat.lt_min, Nat.lt_min, h.count, Nat.mul_lt_mul_right pos]
  rw [getElem?_take] at at_i
  split at at_i
  next lt =>
    rw [piece_take (Nat.mul_le_mul_right c lt)]
    exact h.each i e at_i
  next => cases at_i

theorem Covers.drop (h : Covers R c es ds) (n : Nat) : Covers R c (es.drop n) (ds.drop (n * c)) := by
  refine ⟨fun i => ?_, fun i e at_i => ?_⟩
  · have := h.count (n + i)
    rw [Nat.add_mul] at this
    rw [length_drop, length_drop]
    omega
  · rw [getElem?_drop] at at_i
    rw [piece_drop]
    exact h.each _ e at_i

theorem Covers.append (h : Covers R c es (ds.take (k * c))) (h' : Covers R c es' (ds.drop (k * c)))
    (pos : 0 < c) (within : k * c ≤ ds.length) : Covers R c (es ++ es') ds := by
  have length_eq : es.length = k := h.length_of_mul pos (by rw [length_take, Nat.min_eq_left within])
  refine ⟨fun i => ?_, fun i e at_i => ?_⟩
  · by_cases before : i < k
    · have lt : i * c < k * c := (Nat.mul_lt_mul_right pos).mpr before
      simp only [length_append]
      omega
    · obtain ⟨j, rfl⟩ : ∃ j, i = k + j := ⟨i - k, by omega⟩
      have := h'.count j
      rw [length_drop] at this
      rw [length_append, Nat.add_mul]
      omega
  · by_cases before : i < k
    · rw [getElem?_append_left (by omega)] at at_i
      have := h.each i e at_i
      rwa [piece_take (Nat.mul_le_mul_right c before)] at this
    · rw [getElem?_append_right (by omega), length_eq] at at_i
      have := h'.each _ e at_i
      rwa [piece_drop, Nat.add_sub_cancel' (by omega)] at this

/-- The `j`-th group of `b` elements covers the `j`-th piece of `b * c` elements. -/
theorem Covers.group (h : Covers R c es ds) (pos : 0 < c) (b j : Nat) :
    Covers R c (piece b j es) (piece (b * c) j ds) := by
  have cut := (h.drop (j * b)).take pos b
  rwa [Nat.mul_assoc] at cut

end Pieces
