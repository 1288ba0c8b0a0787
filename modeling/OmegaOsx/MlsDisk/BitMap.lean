import OmegaOsx.MlsDisk.Basic
import Mathlib.Data.List.Perm.Subperm

/-!
# Bitmaps

The bits in use are the list; the words they are packed into are left out.
-/

namespace OmegaOsx.MlsDisk

open List Nat

abbrev BitMap := List Bool

variable {bm : BitMap} {index : Nat}

namespace BitMap

/-- The first zero bit at or after `start`. -/
def firstZero (bm : BitMap) (start : Nat) : Option Nat :=
  let index := start + (bm.drop start).findIdx (! ·)
  if index < bm.length then some index else none

def lastZero (bm : BitMap) : Option Nat :=
  (bm.reverse.findIdx? (! ·)).map (bm.length - 1 - ·)

def checkIndex (bm : BitMap) (index : Nat) : Res Unit :=
  let nbits := bm.length
  if nbits ≤ index then panicWith s!"bitmap index {index} is out of range, total bits {nbits}"
  else pure ()

/-- `set`, behind the index check. -/
def setBit (bm : BitMap) (index : Nat) (value : Bool) : Res BitMap := do
  bm.checkIndex index
  pure (bm.set index value)

theorem checkIndex_of_lt (inside : index < bm.length) : bm.checkIndex index = .ok () := if_neg (not_le.mpr inside)

theorem checkIndex_of_le (outside : bm.length ≤ index) :
    ∃ fault, bm.checkIndex index = .error fault := ⟨_, if_pos outside⟩

theorem setBit_ok {bm' : BitMap} {value : Bool} :
    bm.setBit index value = .ok bm' ↔ index < bm.length ∧ bm' = bm.set index value := by
  unfold setBit checkIndex panicWith
  by_cases inside : index < bm.length
  · rw [if_neg (not_le.mpr inside)]
    exact ⟨fun h => ⟨inside, (Except.ok.inj h).symm⟩, fun h => congrArg _ h.2.symm⟩
  · rw [if_pos (not_lt.mp inside)]
    exact ⟨(nomatch ·), fun h => absurd h.1 inside⟩

def isFree (bm : BitMap) (index : Nat) : Bool := bm[index]? == some false

theorem isFree_iff : bm.isFree index = true ↔ bm[index]? = some false := by
  simp [isFree]

variable {start n i nth : Nat}

/-- Leading ones can be skipped in the search for the first zero. -/
theorem findIdx_drop (ones : ∀ i < start, bm[i]? = some true) :
    bm.findIdx (! ·) = start + (bm.drop start).findIdx (! ·) := by
  induction start generalizing bm with
  | zero => simp
  | succ n ih =>
    cases bm with
    | nil => cases ones 0 (succ_pos n)
    | cons b bm =>
      have head : b = true := by simpa using ones 0 (succ_pos n)
      have tail : ∀ i < n, bm[i]? = some true := fun i h => by
        simpa using ones (i + 1) (succ_lt_succ h)
      rw [findIdx_cons, head, ih tail]
      exact Nat.add_right_comm _ _ _

theorem ones_before (first : bm.findIdx (! ·) = n) (lt : i < n) : bm[i]? = some true := by
  have bound : i < bm.length := lt_of_lt_of_le lt (first ▸ findIdx_le_length)
  have one := not_of_lt_findIdx (first.symm ▸ lt)
  rw [getElem?_eq_getElem bound]
  simpa using one

/-- Setting a bit behind the first zero leaves it the first zero. -/
theorem findIdx_set_of_lt (first : bm.findIdx (! ·) = n) (lt : n < nth) : (bm.set nth true).findIdx (! ·) = n := by
  by_cases inside : n < bm.length
  · subst first
    have zero := findIdx_getElem (w := inside)
    refine (findIdx_eq (by simpa using inside)).mpr ⟨?_, fun j before => ?_⟩
    · rwa [getElem_set_of_ne (ne_of_gt lt)]
    · have one := not_of_lt_findIdx before
      rw [getElem_set_of_ne (ne_of_gt (lt_trans before lt))]
      simpa using one
  · rw [set_eq_of_length_le (by omega)]
    exact first

/-- Setting the first zero moves it to the next zero. -/
theorem findIdx_set_self (first : bm.findIdx (! ·) = nth) :
    (bm.set nth true).findIdx (! ·) = (firstZero (bm.set nth true) nth).getD bm.length := by
  have ones : ∀ i < nth, (bm.set nth true)[i]? = some true := fun i before => by
    rw [getElem?_set_ne (ne_of_gt before)]
    exact ones_before first before
  rw [firstZero, ← findIdx_drop ones]
  have bound : (bm.set nth true).findIdx (! ·) ≤ (bm.set nth true).length := findIdx_le_length
  rw [length_set] at bound ⊢
  split
  · rfl
  · exact le_antisymm bound (not_lt.mp ‹_›)

theorem firstZero_some_iff : firstZero bm start = some i ↔
      start ≤ i ∧ bm[i]? = some false ∧ ∀ j, start ≤ j → j < i → bm[j]? ≠ some false := by
  unfold firstZero
  dsimp only
  have step j : (bm.drop start)[j]? = bm[start + j]? := getElem?_drop
  constructor
  · intro h
    split at h
    · next inside =>
      cases h
      have bound : (bm.drop start).findIdx (! ·) < (bm.drop start).length := by
        rw [length_drop]
        omega
      have zero := findIdx_getElem (w := bound)
      refine ⟨le_add_right _ _, ?_, fun j after before => ?_⟩
      · rw [← step, getElem?_eq_getElem bound]
        simpa using zero
      have one := not_of_lt_findIdx (show j - start < (bm.drop start).findIdx (! ·) by omega)
      have : start + (j - start) = j := Nat.add_sub_cancel' after
      rw [← this, getElem?_eq_getElem (by omega)]
      simpa using one
    · cases h
  · rintro ⟨after, zero, ones⟩
    have inside : i < bm.length := (List.getElem?_eq_some_iff.mp zero).1
    have eq : (bm.drop start).findIdx (! ·) = i - start := by
      refine (findIdx_eq (by rw [length_drop]; omega)).mpr ⟨?_, fun j before => ?_⟩
      · have := (List.getElem?_eq_some_iff.mp (show (bm.drop start)[i - start]? = some false by
          rw [step, Nat.add_sub_cancel' after, zero])).2
        simp [this]
      have bound : j < (bm.drop start).length := by
        rw [length_drop]
        omega
      have one := ones (start + j) (le_add_right _ _) (by omega)
      rw [← step, getElem?_eq_getElem bound] at one
      simpa using one
    rw [eq, Nat.add_sub_cancel' after, if_pos inside]

/-- The search finds the first free index of the range it scans. -/
theorem firstZero_eq_head? (bm : BitMap) (start : Nat) :
    firstZero bm start = ((range' start (bm.length - start)).filter bm.isFree).head? := by
  rw [head?_filter]
  ext i
  rw [firstZero_some_iff, find?_range'_eq_some]
  constructor
  · rintro ⟨after, zero, ones⟩
    have inside : i < bm.length := (List.getElem?_eq_some_iff.mp zero).1
    refine ⟨isFree_iff.mpr zero, mem_range'_1.mpr ⟨after, by omega⟩, fun j from_start before => ?_⟩
    rw [Bool.not_eq_true', ← Bool.not_eq_true, isFree_iff]
    exact ones j from_start before
  · rintro ⟨free, range, ones⟩
    refine ⟨(mem_range'_1.mp range).1, isFree_iff.mp free, fun j from_start before zero => ?_⟩
    have := ones j from_start before
    rw [isFree_iff.mpr zero] at this
    cases this

theorem lastZero_some (h : lastZero bm = some n) : n < bm.length ∧ ∀ i, bm[i]? = some false → i ≤ n := by
  obtain ⟨j, found, rfl⟩ := Option.map_eq_some_iff.mp h
  obtain ⟨inside, -, ones⟩ := findIdx?_eq_some_iff_getElem.mp found
  rw [length_reverse] at inside
  refine ⟨by omega, fun i zero => not_lt.mp fun later => ?_⟩
  -- a zero further right would come earlier in the reverse
  obtain ⟨bound, eq⟩ := List.getElem?_eq_some_iff.mp zero
  have one := ones (bm.length - 1 - i) (by omega)
  rw [getElem_reverse] at one
  have same : bm.length - 1 - (bm.length - 1 - i) = i := by omega
  simp only [same, eq] at one
  exact one rfl

/-! ### Ones -/

/-- The indices of the one bits, `iter_ones`. -/
def ones (bm : BitMap) : List Nat := (List.range bm.length).filter fun i => bm[i]? = some true

def countOnes (bm : BitMap) : Nat := bm.count true

/-- The first one bit at or after `start`. -/
def firstOne (bm : BitMap) (start : Nat) : Res (Option Nat) := do
  bm.checkIndex start
  pure (bm.ones.find? (start ≤ ·))

/-- The first `count` one bits at or after `start`. -/
def firstOnes (bm : BitMap) (start count : Nat) : Res (Option (List Nat)) := do
  bm.checkIndex (← checkedSub (start + count) 1)
  let ones := (bm.ones.filter (start ≤ ·)).take count
  pure (if ones.length = count then some ones else none)

theorem mem_ones : i ∈ bm.ones ↔ bm[i]? = some true := by
  unfold ones
  rw [mem_filter, mem_range, decide_eq_true_eq]
  exact and_iff_right_of_imp fun h => (List.getElem?_eq_some_iff.mp h).1

theorem sorted_ones (bm : BitMap) : bm.ones.Pairwise (· < ·) := pairwise_lt_range.filter _

theorem nodup_ones (bm : BitMap) : bm.ones.Nodup := (sorted_ones bm).imp ne_of_lt

theorem length_ones (bm : BitMap) : bm.ones.length = bm.countOnes := by
  induction bm with
  | nil => rfl
  | cons b bm ih =>
    have tail : ((range bm.length).map succ).filter (fun i => (b :: bm)[i]? = some true) =
        (ones bm).map succ := filter_map
    unfold ones countOnes at *
    rw [length_cons, range_succ_eq_map, filter_cons, tail]
    cases b <;> simp [ih]

/-- A first one bit leaves room for all the ones behind it. -/
theorem head_add_countOnes_le {first : Nat} (head : bm.ones.head? = some first) :
    first + bm.countOnes ≤ bm.length := by
  have sub : bm.ones ⊆ range' first (bm.length - first) := by
    intro i mem
    have inside := (List.getElem?_eq_some_iff.mp (mem_ones.mp mem)).1
    have after : first ≤ i := by
      obtain ⟨rest, eq⟩ := head?_eq_some_iff.mp head
      have sorted := sorted_ones bm
      rw [eq] at sorted mem
      rcases mem_cons.mp mem with rfl | mem
      · exact le_rfl
      · exact le_of_lt ((pairwise_cons.mp sorted).1 i mem)
    exact mem_range'_1.mpr ⟨after, by omega⟩
  have few := (List.Nodup.subperm (nodup_ones bm) sub).length_le
  have inside := (List.getElem?_eq_some_iff.mp (mem_ones.mp (mem_of_head? head))).1
  rw [length_ones, length_range'] at few
  omega

end BitMap

end OmegaOsx.MlsDisk
