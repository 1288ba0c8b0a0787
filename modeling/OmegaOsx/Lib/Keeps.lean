import Mathlib.Data.List.Basic

/-!
# What stateful code keeps, however it ends

`Keeps P m`: from a state with `P`, the code `m` ends in one with `P`, whether it returns or throws.
The rules follow the shape of the code.
-/

namespace Keeps

variable {ε σ α β : Type}

/-- The state code ends in. -/
def endState (m : EStateM ε σ α) (s : σ) : σ :=
  match m.run s with
  | .ok _ t => t
  | .error _ t => t

end Keeps

open Keeps in
def Keeps {ε σ α : Type} (P : σ → Prop) (m : EStateM ε σ α) : Prop := ∀ s, P s → P (endState m s)

namespace Keeps

variable {ε σ α β : Type} {P : σ → Prop}

theorem pure (a : α) : Keeps P (pure a : EStateM ε σ α) := fun _ h => h

theorem throw (e : ε) : Keeps P (throw e : EStateM ε σ α) := fun _ h => h

theorem modify {f : σ → σ} (h : ∀ s, P s → P (f s)) : Keeps P (modify f : EStateM ε σ Unit) := h

variable {m : EStateM ε σ α} {f : α → EStateM ε σ β}

/-- Code that brings about `P` and then keeps it. -/
theorem endState_bind {s : σ} (first : P (endState m s)) (rest : ∀ a, Keeps P (f a)) : P (endState (m >>= f) s) := by
  unfold endState at first ⊢
  rw [EStateM.run_bind]
  cases run : m.run s with
  | ok a t =>
    rw [run] at first
    exact rest a t first
  | error e t =>
    rw [run] at first
    exact first

theorem bind (first : Keeps P m) (rest : ∀ a, Keeps P (f a)) :
    Keeps P (m >>= f) := fun s h => endState_bind (first s h) rest

theorem ite {c : Prop} [Decidable c] {m' : EStateM ε σ α} (h : Keeps P m) (h' : Keeps P m') :
    Keeps P (if c then m else m') := by
  split
  · exact h
  · exact h'

theorem get_bind {f : σ → EStateM ε σ α} (h : ∀ s, P s → Keeps P (f s)) :
    Keeps P ((MonadState.get : EStateM ε σ σ) >>= f) := fun s hs => h s hs s hs

theorem endState_get_bind {f : σ → EStateM ε σ α} (s : σ) :
    endState ((MonadState.get : EStateM ε σ σ) >>= f) s = endState (f s) s := rfl

theorem endState_of_ok {s t : σ} {a : α} (h : m.run s = .ok a t) : endState m s = t := by
  unfold endState
  rw [h]

theorem of_run_bind_ok {s u : σ} {b : β} (h : (m >>= f).run s = .ok b u) :
    ∃ a t, m.run s = .ok a t ∧ (f a).run t = .ok b u := by
  rw [EStateM.run_bind] at h
  cases run : m.run s with
  | ok a t =>
    rw [run] at h
    exact ⟨a, t, rfl, h⟩
  | error e t =>
    rw [run] at h
    cases h

theorem forM {f : α → EStateM ε σ PUnit} (h : ∀ a, Keeps P (f a)) (l : List α) : Keeps P (l.forM f) := by
  induction l with
  | nil => exact .pure _
  | cons a l ih => exact .bind (h a) fun _ => ih

/-- Code with `P` at its end if it throws, and more if it returns. -/
theorem endState_bind_ok {s : σ} (first : P (endState m s))
    (rest : ∀ a t, m.run s = .ok a t → P (endState (f a) t)) :
    P (endState (m >>= f) s) := by
  unfold endState at first ⊢
  rw [EStateM.run_bind]
  cases run : m.run s with
  | ok a t => exact rest a t run
  | error e t =>
    rw [run] at first
    exact first

end Keeps
