import Mathlib.Data.List.Basic

/-!
# Labelled runs

A labelled transition relation `step : σ → ι → σ → Prop` and its finite runs.
-/

namespace Labelled

variable {σ ι : Type*} {step : σ → ι → σ → Prop}

/-- `Run step s as t`: the labels `as`, taken in order, lead from `s` to `t`. -/
inductive Run (step : σ → ι → σ → Prop) : σ → List ι → σ → Prop
  | nil (s : σ) : Run step s [] s
  | cons {s t u : σ} {a : ι} {as : List ι} (first : step s a t) (rest : Run step t as u) :
      Run step s (a :: as) u

variable {as : List ι} {s : σ}

namespace Run

theorem invariant {Inv : σ → Prop} (keep : ∀ s a t, Inv s → step s a t → Inv t) {t : σ} (h : Run step s as t)
    (hs : Inv s) : Inv t := by
  induction h with
  | nil => exact hs
  | cons first _ ih => exact ih (keep _ _ _ hs first)

/-- An invariant of the state and of the labels taken before it. -/
theorem history {Inv : List ι → σ → Prop} (keep : ∀ past s a t, Inv past s → step s a t → Inv (past ++ [a]) t)
    {past : List ι} {t : σ} (h : Run step s as t) (hs : Inv past s) : Inv (past ++ as) t := by
  induction h generalizing past with
  | nil => rwa [List.append_nil]
  | cons first _ ih =>
    rw [List.append_cons]
    exact ih (keep _ _ _ _ hs first)

/-- A run seen through `view` is a run of another system, if each step from a state with `Inv` is a step of it. -/
theorem simulate {τ : Type*} {step' : τ → ι → τ → Prop} {view : σ → τ} {Inv : σ → Prop}
    (keep : ∀ s a t, Inv s → step s a t → Inv t ∧ step' (view s) a (view t)) {t : σ}
    (h : Run step s as t) (hs : Inv s) :
    Inv t ∧ Run step' (view s) as (view t) := by
  induction h with
  | nil => exact ⟨hs, .nil _⟩
  | cons first _ ih =>
    obtain ⟨ht, step⟩ := keep _ _ _ hs first
    obtain ⟨hu, rest⟩ := ih ht
    exact ⟨hu, .cons step rest⟩

theorem mono {step' : σ → ι → σ → Prop} (weaken : ∀ s a t, step s a t → step' s a t) {t : σ}
    (h : Run step s as t) :
    Run step' s as t := by
  induction h with
  | nil s => exact .nil s
  | cons first _ ih => exact .cons (weaken _ _ _ first) ih

theorem append {t u : σ} {bs : List ι} (h : Run step s as t) (h' : Run step t bs u) : Run step s (as ++ bs) u := by
  induction h with
  | nil => exact h'
  | cons first _ ih => exact .cons first (ih h')

theorem split {u : σ} {bs : List ι} (h : Run step s (as ++ bs) u) : ∃ t, Run step s as t ∧ Run step t bs u := by
  induction as generalizing s with
  | nil => exact ⟨s, .nil s, h⟩
  | cons a as ih =>
    obtain - | ⟨first, rest⟩ := h
    obtain ⟨t, left, right⟩ := ih rest
    exact ⟨t, .cons first left, right⟩

/-- The run of a program that returns. -/
theorem of_foldlM {ε : Type*} {exec : σ → ι → Except ε σ}
    (sound : ∀ a ∈ as, ∀ s t, exec s a = .ok t → step s a t)
    {t : σ} (h : as.foldlM exec s = .ok t) : Run step s as t := by
  induction as generalizing s with
  | nil =>
    cases h
    exact .nil _
  | cons a as ih =>
    rw [List.foldlM_cons] at h
    cases first : exec s a with
    | error e =>
      rw [first] at h
      cases h
    | ok mid =>
      rw [first] at h
      exact .cons (sound a List.mem_cons_self s mid first) (ih (fun b mem => sound b (List.mem_cons_of_mem _ mem)) h)

theorem single {t : σ} {a : ι} (h : step s a t) : Run step s [a] t := .cons h (.nil t)

end Run

/-- A state that a run from `s` leads to. -/
abbrev Reachable (step : σ → ι → σ → Prop) (s : σ) := { t // ∃ as, Run step s as t }

end Labelled
