import Mathlib.Algebra.Group.Nat.Defs
import Mathlib.Algebra.NeZero
import Mathlib.Data.Fin.Basic

/-!
# Errors, sizes and cryptographic primitives of the disk crate

`Errno` is the crate's error enumeration. A function of the crate either returns, fails with an
error, or panics; `Res` records which. Integer arithmetic that would leave its type panics, as it
does in the profile the kernel is built with by default; a `debug_assert!` is a contract and has no
effect of its own, here and elsewhere, except in a model that says so.

The AEAD cipher, the random source and the serialiser are code outside the crate. They are
parameters here; `Crypto.Ideal` states what the crate's own comments promise of the cipher.
-/

namespace OmegaOsx.MlsDisk

/-- The error types used in the crate. -/
inductive Errno
  | txAborted
  | notFound
  | invalidArgs
  | outOfMemory
  | outOfDisk
  | ioFailed
  | permissionDenied
  | unsupported
  | osSpecUnknown
  | encryptFailed
  | decryptFailed
  | macMismatched
  | notBlockSizeAligned
  | tryLockFailed
  deriving DecidableEq, Repr

/-- How a call can end without a value: an `Error` with its message, or a panic. -/
inductive Fault
  | error (errno : Errno) (msg : String)
  | panic (msg : String)
  deriving DecidableEq, Repr

abbrev Res (α : Type) := Except Fault α

/-- `return_errno_with_msg!`. -/
def fail {α : Type} (errno : Errno) (msg : String) : Res α := .error (.error errno msg)

def panicWith {α : Type} (msg : String) : Res α := .error (.panic msg)

/-- Subtraction of unsigned integers: it panics when the result would be negative. -/
def checkedSub (a b : Nat) : Res Nat :=
  if b ≤ a then .ok (a - b) else panicWith "attempt to subtract with overflow"

theorem checkedSub_of_le {a b : Nat} (h : b ≤ a) : checkedSub a b = .ok (a - b) := if_pos h

theorem checkedSub_ok {a b c : Nat} : checkedSub a b = .ok c ↔ b ≤ a ∧ c = a - b := by
  unfold checkedSub panicWith
  split <;> grind

variable {α : Type} {ε β : Type} {x : Except ε α}

/-- Peels one step off a computation that returned. -/
theorem bind_ok {f : α → Except ε β} {b : β} : x >>= f = .ok b ↔ ∃ a, x = .ok a ∧ f a = .ok b := by
  cases x with
  | error e => exact ⟨(nomatch ·), fun ⟨_, h, _⟩ => nomatch h⟩
  | ok a => exact ⟨fun h => ⟨a, rfl, h⟩, fun ⟨_, h, h'⟩ => by cases h; exact h'⟩

@[simp] theorem ok_bind {a : α} {f : α → Except ε β} : (.ok a >>= f) = f a := rfl

theorem exists_ok (h : x.toOption.isSome) : ∃ a, x = .ok a := by
  cases x with
  | error e => cases h
  | ok a => exact ⟨a, rfl⟩

theorem exists_ok_of_map {f : α → β} {b : β} (h : x.toOption.map f = some b) : ∃ a, x = .ok a ∧ f a = b := by
  cases x with
  | error e => cases h
  | ok a => exact ⟨a, rfl, Option.some.inj h⟩

/-- A check that returned was passed. -/
theorem guard_ok {c : Prop} [Decidable c] {e : ε} {a : α} :
    (if c then .error e else x) = .ok a ↔ ¬ c ∧ x = .ok a := by
  split <;> simp_all

theorem ite_ok {c : Prop} [Decidable c] {e : ε} {a : α} :
    (if c then x else .error e) = .ok a ↔ c ∧ x = .ok a := by
  split <;> simp_all

theorem update_same {ι : Type} [DecidableEq ι] (f : ι → α) {i : ι} {a : α} (g : α → β)
    (same : g a = g (f i)) :
    ∀ j, g (Function.update f i a j) = g (f j) :=
  (Function.forall_update_iff f fun j x => g x = g (f j)).mpr ⟨same, fun _ _ => rfl⟩

/-- Addition of `u32`s: it panics when the sum does not fit. -/
def addU32 (a b : Nat) : Res Nat :=
  if a + b < 2 ^ 32 then .ok (a + b) else panicWith "attempt to add with overflow"

theorem addU32_ok {a b c : Nat} : addU32 a b = .ok c ↔ a + b < 2 ^ 32 ∧ c = a + b := by
  unfold addU32 panicWith
  split <;> grind

def alignUp (x align : Nat) : Nat := (x + align - 1) / align * align

theorem le_alignUp (x : Nat) {align : Nat} (pos : 0 < align) : x ≤ alignUp x align := by
  have next : x + align - 1 < (x + align - 1) / align * align + align := Nat.lt_div_mul_add pos
  unfold alignUp
  omega

/-- `BLOCK_SIZE`, in bytes. -/
@[irreducible] def blockSize : Nat := 4096

abbrev Bytes := List UInt8

/-- `Vec::resize` with zero bytes. -/
def resize (buf : Bytes) (len : Nat) : Bytes := buf.take len ++ List.replicate (len - buf.length) 0

/-- The `Aead` cipher and the random source. The associated data is either empty or the MAC of
another message. -/
structure Crypto (Key Iv Mac : Type) where
  encrypt : Bytes → Key → Iv → Option Mac → Bytes × Mac
  decrypt : Bytes → Key → Iv → Option Mac → Mac → Option Bytes
  /-- The zeroed IV whose first bytes are a version number. -/
  versionIv : Nat → Iv
  /-- The IV returned by the n-th call of `Iv::random()`. -/
  randomIv : Nat → Iv

namespace Crypto

variable {Key Iv Mac : Type} [Inhabited Mac]

/-- What the crate relies on: decryption undoes encryption and accepts nothing else, a ciphertext
is as long as its plaintext, distinct messages have distinct MACs, none of them the zero MAC, and
the random source does not repeat an IV. -/
structure Ideal (C : Crypto Key Iv Mac) : Prop where
  decrypt_encrypt : ∀ p k iv aad,
    C.decrypt (C.encrypt p k iv aad).1 k iv aad (C.encrypt p k iv aad).2 = some p
  authentic : ∀ c k iv aad mac p, C.decrypt c k iv aad mac = some p → C.encrypt p k iv aad = (c, mac)
  length_encrypt : ∀ p k iv aad, (C.encrypt p k iv aad).1.length = p.length
  mac_inj : ∀ p k iv aad p' k' iv' aad', (C.encrypt p k iv aad).2 = (C.encrypt p' k' iv' aad').2 →
    p = p' ∧ k = k' ∧ iv = iv' ∧ aad = aad'
  mac_ne_default : ∀ p k iv aad, (C.encrypt p k iv aad).2 ≠ default
  randomIv_inj : Function.Injective C.randomIv

end Crypto

end OmegaOsx.MlsDisk
