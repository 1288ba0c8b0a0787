import OmegaOsx.MlsDisk.Basic

/-!
# Stateful code

An operation that fails keeps what it has done so far, so code with a state is in `EStateM`. The
lemmas run such code forwards, one step at a time.
-/

namespace OmegaOsx.MlsDisk

open EStateM

def raise {σ α : Type} (errno : Errno) (msg : String) : EStateM Fault σ α :=
  throw (.error errno msg)

def crash {σ α : Type} (msg : String) : EStateM Fault σ α := throw (.panic msg)

def liftRes {σ α : Type} : Res α → EStateM Fault σ α
  | .ok a => pure a
  | .error e => throw e

/-- `Result::unwrap`. -/
def unwrap {σ α : Type} (x : EStateM Fault σ α) : EStateM Fault σ α := fun s =>
  match x.run s with
  | .ok a s => .ok a s
  | .error _ s => .error (.panic "called `Result::unwrap()` on an `Err` value") s

/-- `Option::unwrap`. -/
def unwrapOption {σ α : Type} : Option α → EStateM Fault σ α
  | some a => pure a
  | none => crash "called `Option::unwrap()` on a `None` value"

section Run

variable {ε σ α β : Type} {s s' : σ} {a : α} {x : EStateM ε σ α} {f : α → EStateM ε σ β}

theorem run_bind (h : x.run s = .ok a s') : (x >>= f).run s = (f a).run s' := by
  rw [EStateM.run_bind, h]

theorem run_bind_error {e : ε} (h : x.run s = .error e s') : (x >>= f).run s = .error e s' := by
  rw [EStateM.run_bind, h]

@[simp] theorem run_get_bind {f : σ → EStateM ε σ β} : run (get >>= f) s = (f s).run s := rfl

@[simp] theorem run_set_bind {f : PUnit → EStateM ε σ β} : run (set s' >>= f) s = (f ⟨⟩).run s' := rfl

@[simp] theorem run_modify_bind {f : σ → σ} {g : PUnit → EStateM ε σ β} :
    run (modify f >>= g) s = (g ⟨⟩).run (f s) := rfl

@[simp] theorem run_liftRes_bind {f : α → EStateM Fault σ β} : run (liftRes (.ok a) >>= f) s = (f a).run s := rfl

@[simp] theorem run_unwrapOption_bind {f : α → EStateM Fault σ β} :
    run (unwrapOption (some a) >>= f) s = (f a).run s := rfl

theorem unwrap_run {x : EStateM Fault σ α} (h : x.run s = .ok a s') : (unwrap x).run s = .ok a s' := by
  simp only [unwrap, run] at h ⊢
  rw [h]

/-- Peels one step off a run that returned. -/
theorem run_bind_ok {b : β} : (x >>= f).run s = .ok b s' ↔ ∃ a t, x.run s = .ok a t ∧
    (f a).run t = .ok b s' := by
  rw [EStateM.run_bind]
  cases h : x.run s with
  | ok a t => exact ⟨fun run => ⟨a, t, rfl, run⟩, fun ⟨_, _, eq, run⟩ => by cases eq; exact run⟩
  | error e t => exact ⟨(nomatch ·), fun ⟨_, _, eq, _⟩ => nomatch eq⟩

end Run

end OmegaOsx.MlsDisk
