import Mathlib.Tactic.Ring

/-!
# Little-endian numbers

`toBytes n x` is `x` in `n` bytes, the lowest first; what does not fit is cut off. `ofBytes` reads a
number back.
-/

namespace LittleEndian

def toBytes : Nat → Nat → List UInt8
  | 0, _ => []
  | n + 1, x => UInt8.ofNat x :: toBytes n (x / 256)

def ofBytes : List UInt8 → Nat
  | [] => 0
  | b :: bs => b.toNat + 256 * ofBytes bs

@[simp] theorem length_toBytes (n x : Nat) : (toBytes n x).length = n := by
  induction n generalizing x with
  | zero => rfl
  | succ n ih => exact congrArg (· + 1) (ih _)

theorem ofBytes_toBytes (n x : Nat) : ofBytes (toBytes n x) = x % 256 ^ n := by
  induction n generalizing x with
  | zero => exact (Nat.mod_one x).symm
  | succ n ih =>
    show (UInt8.ofNat x).toNat + 256 * ofBytes (toBytes n (x / 256)) = _
    rw [ih, pow_succ, mul_comm (256 ^ n) 256, Nat.mod_mul, UInt8.toNat_ofNat']

theorem ofBytes_toBytes_of_lt {n x : Nat} (h : x < 256 ^ n) : ofBytes (toBytes n x) = x := by
  rw [ofBytes_toBytes, Nat.mod_eq_of_lt h]

end LittleEndian
