import OmegaOsx.MlsDisk.SSTableLoad
import Mathlib.Order.Fin.Basic

/-!
# The records of the disk

The disk keeps its index in tables from block addresses to host block addresses with their keys and
MACs. This is the instance of the table environment the disk uses, with a cache that drops nothing.
-/

namespace OmegaOsx.MlsDisk

/-- Block addresses of 64 bits. -/
abbrev Lba := Fin (2 ^ 64)

instance neZeroLbas : NeZero (2 ^ 64) := ⟨by decide⟩

def lbaKey : RecordKey Lba where
  pod :=
    { size := bidSize
      asBytes := fun lba => LittleEndian.toBytes bidSize lba.val
      fromBytes := fun bytes => Fin.ofNat _ (LittleEndian.ofBytes bytes)
      length_asBytes := fun _ => LittleEndian.length_toBytes _ _
      fromBytes_asBytes := fun lba => by
        have lt : lba.val < 256 ^ bidSize := by
          rw [bidSize_eq]
          exact lba.isLt
        rw [LittleEndian.ofBytes_toBytes_of_lt lt]
        exact Fin.ofNat_val_eq_self lba }
  size_eq := rfl
  num := Fin.val
  num_lt_num := Fin.lt_def.symm
  add := fun lba n =>
    if h : lba.val + n < 2 ^ 64 then .ok ⟨lba.val + n, h⟩
    else panicWith "attempt to add with overflow"
  add_ok := fun {lba n lba'} => by
    split
    next h => exact ⟨fun eq => by cases eq; rfl, fun eq => congrArg Except.ok (Fin.ext eq.symm)⟩
    next h => exact ⟨(nomatch ·), fun eq => absurd lba'.isLt (eq ▸ h)⟩

/-- A host block address, a key and a MAC. -/
abbrev RecordValue := { bytes : Bytes // bytes.length = 40 }

def recordValue : Pod RecordValue where
  size := 40
  asBytes := Subtype.val
  fromBytes := fun bytes =>
    if h : bytes.length = 40 then ⟨bytes, h⟩ else ⟨List.replicate 40 0, List.length_replicate⟩
  length_asBytes := Subtype.property
  fromBytes_asBytes := fun v => dif_pos v.2

/-- A cache that drops nothing. -/
def assocCache : Cache (List (Nat × Bytes)) Nat Bytes where
  get := fun c pos => ((c.find? (·.1 = pos)).map Prod.snd, c)
  put := fun c pos block => (pos, block) :: c
  holds := fun c pos block => (pos, block) ∈ c
  get_some := fun {c pos block} h => by
    obtain ⟨⟨pos', _⟩, found, rfl⟩ := Option.map_eq_some_iff.mp h
    have eq : pos' = pos := by simpa using List.find?_some found
    exact eq ▸ List.mem_of_find?_eq_some found
  get_holds := id
  put_holds := fun h => by
    obtain _ | ⟨_, old⟩ := h
    · exact .inl ⟨rfl, rfl⟩
    · exact .inr old

def diskEnv : SstEnv (List (Nat × Bytes)) Lba RecordValue where
  key := lbaKey
  value := recordValue
  cache := assocCache
  newCache := []
  newCache_holds := fun h => nomatch h

def someValue : RecordValue := ⟨List.replicate 40 7, List.length_replicate⟩

end OmegaOsx.MlsDisk
