import Mathlib.Algebra.GroupWithZero.Nat
import Mathlib.Order.Lattice
import Mathlib.Data.List.Basic

/-!
# Maps kept as sorted lists

A `SortedMap` is a list of entries in strictly increasing order of their keys: a map that is iterated
in the order of the keys. `mem_entries_iff` says that the entries are the graph of `lookup`, and
`lookup_insert` and `lookup_erase` what an update changes. `head_le` and `le_getLast` bound the keys by
the first and the last entry.
-/

variable {κ α : Type} [LinearOrder κ]

structure SortedMap (κ α : Type) [LinearOrder κ] where
  entries : List (κ × α)
  sorted : entries.Pairwise fun e e' => e.1 < e'.1

namespace SortedMap

open List

def empty : SortedMap κ α := ⟨[], .nil⟩

def isEmpty (m : SortedMap κ α) : Bool := m.entries.isEmpty

def lookupIn (k : κ) : List (κ × α) → Option α
  | [] => none
  | (k', a) :: rest => if k = k' then some a else lookupIn k rest

variable (m : SortedMap κ α)

def lookup (k : κ) : Option α := lookupIn k m.entries

/-- Puts an entry at its place, in the place of an entry with the same key. -/
def insertInto (k : κ) (a : α) : List (κ × α) → List (κ × α)
  | [] => [(k, a)]
  | (k', a') :: rest =>
    if k < k' then (k, a) :: (k', a') :: rest
    else if k = k' then (k, a) :: rest
    else (k', a') :: insertInto k a rest

variable {l : List (κ × α)} {k : κ} {a : α} {e : κ × α}

theorem mem_insertInto (h : e ∈ insertInto k a l) : e = (k, a) ∨ e ∈ l := by
  induction l with
  | nil => exact .inl (mem_singleton.mp h)
  | cons first rest ih =>
    unfold insertInto at h
    split at h
    · exact mem_cons.mp h
    split at h
    · exact (mem_cons.mp h).imp_right (mem_cons_of_mem _)
    · rcases mem_cons.mp h with rfl | h
      · exact .inr mem_cons_self
      · exact (ih h).imp_right (mem_cons_of_mem _)

theorem sorted_insertInto (sorted : l.Pairwise fun e e' => e.1 < e'.1) :
    (insertInto k a l).Pairwise fun e e' => e.1 < e'.1 := by
  induction l with
  | nil => exact pairwise_singleton _ _
  | cons first rest ih =>
    obtain ⟨head, tail⟩ := pairwise_cons.mp sorted
    unfold insertInto
    split
    · next before =>
      refine pairwise_cons.mpr ⟨fun e mem => ?_, sorted⟩
      rcases mem_cons.mp mem with rfl | mem
      · exact before
      · exact before.trans (head e mem)
    next notBefore =>
    split
    · next same => exact pairwise_cons.mpr ⟨fun e mem => same ▸ head e mem, tail⟩
    · next ne =>
      refine pairwise_cons.mpr ⟨fun e mem => ?_, ih tail⟩
      rcases mem_insertInto mem with rfl | mem
      · exact lt_of_le_of_ne (not_lt.mp notBefore) (Ne.symm ne)
      · exact head e mem

theorem lookupIn_insertInto (k k' : κ) (a : α) (l : List (κ × α)) :
    lookupIn k' (insertInto k a l) = if k' = k then some a else lookupIn k' l := by
  induction l with
  | nil => rfl
  | cons first rest ih =>
    unfold insertInto
    split
    · rfl
    split
    · next same =>
      rw [lookupIn, lookupIn, ← same]
      split <;> rfl
    · next ne =>
      rw [lookupIn, lookupIn]
      grind

def insert (k : κ) (a : α) : SortedMap κ α :=
  ⟨insertInto k a m.entries, sorted_insertInto m.sorted⟩

theorem lookup_insert (k k' : κ) (a : α) : (m.insert k a).lookup k' = if k' = k then some a else m.lookup k' :=
  lookupIn_insertInto k k' a m.entries

theorem lookupIn_some (h : lookupIn k l = some a) : (k, a) ∈ l := by
  induction l with
  | nil => cases h
  | cons first rest ih =>
    unfold lookupIn at h
    split at h
    · next same =>
      cases h
      exact same ▸ mem_cons_self
    · exact mem_cons_of_mem _ (ih h)

theorem lookupIn_of_mem (sorted : l.Pairwise fun e e' => e.1 < e'.1) (h : (k, a) ∈ l) : lookupIn k l = some a := by
  induction l with
  | nil => cases h
  | cons first rest ih =>
    obtain ⟨head, tail⟩ := pairwise_cons.mp sorted
    unfold lookupIn
    rcases mem_cons.mp h with rfl | h
    · exact if_pos rfl
    · rw [if_neg (ne_of_gt (head _ h))]
      exact ih tail h

/-- The entries are the graph of the lookup. -/
theorem mem_entries_iff {m : SortedMap κ α} : (k, a) ∈ m.entries ↔ m.lookup k = some a :=
  ⟨lookupIn_of_mem m.sorted, lookupIn_some⟩

/-! ### Erasing -/

def erase (k : κ) : SortedMap κ α :=
  ⟨m.entries.filter (·.1 ≠ k), m.sorted.filter _⟩

theorem lookup_erase (k k' : κ) : (m.erase k).lookup k' = if k' = k then none else m.lookup k' := by
  split
  · next same =>
    refine Option.eq_none_iff_forall_ne_some.mpr fun a found => ?_
    have mem := mem_entries_iff.mpr found
    exact absurd same (by simpa using (mem_filter.mp mem).2)
  · next other =>
    refine Option.ext fun a => ?_
    rw [← mem_entries_iff, ← mem_entries_iff, erase]
    simp [other]

variable (sorted : l.Pairwise fun e e' => e.1 < e'.1)
include sorted

theorem le_getLast (last : l.getLast? = some e) : ∀ e' ∈ l, e'.1 ≤ e.1 := by
  obtain ⟨front, rfl⟩ := getLast?_eq_some_iff.mp last
  intro e' mem
  rcases mem_append.mp mem with mem | mem
  · exact le_of_lt ((pairwise_append.mp sorted).2.2 e' mem e (mem_singleton.mpr rfl))
  · exact le_of_eq (congrArg Prod.fst (mem_singleton.mp mem))

theorem head_le (first : l.head? = some e) : ∀ e' ∈ l, e.1 ≤ e'.1 := by
  obtain ⟨rest, rfl⟩ := head?_eq_some_iff.mp first
  intro e' mem
  rcases mem_cons.mp mem with rfl | mem
  · exact le_refl _
  · exact le_of_lt ((pairwise_cons.mp sorted).1 e' mem)

end SortedMap
