import Mathlib.Data.List.Basic
import Mathlib.Data.Nat.ModEq

/-!
# A log kept in a ring of slots

Entry `q` of an unbounded log is written to slot `q % n`. `Ring.Holds init slots log` says what the
`n` slots hold once `log` has been written over `init`: the last `n` entries, and the initial
contents in the slots no entry has reached.

`Ring.Window slots log from_` is the weaker statement for a log whose entries before `from_` have been
given up: their slots may hold anything. `Ring.positions` are the slots of consecutive entries.
-/

namespace Ring

open List Nat

variable {β : Type*} {init slots log : List β}

structure Holds (init slots log : List β) : Prop where
  pos : 0 < init.length
  length_eq : slots.length = init.length
  recent : ∀ q < log.length, log.length ≤ q + init.length → slots[q % init.length]? = log[q]?
  rest : ∀ i < init.length, log.length ≤ i → slots[i]? = init[i]?

variable {n from_ start : Nat}

/-- Two positions less than a lap apart have different slots. -/
theorem mod_ne_of_lt_lap {p q : Nat} (before : p < q) (lap : q < p + n) : p % n ≠ q % n := by
  intro same
  have dvd : n ∣ q - p := (modEq_iff_dvd' before.le).mp same
  have := le_of_dvd (by omega) dvd
  omega

theorem Holds.nil (pos : 0 < init.length) : Holds init init [] where
  pos := pos
  length_eq := rfl
  recent := by simp
  rest := by simp

/-- Writing the next entry to its slot keeps the correspondence. -/
theorem Holds.write (h : Holds init slots log) (b : β) :
    Holds init (slots.set (log.length % init.length) b) (log ++ [b]) := by
  have slot : log.length % init.length < slots.length := by
    rw [h.length_eq]; exact mod_lt _ h.pos
  refine ⟨h.pos, by simpa using h.length_eq, fun q hq hlap => ?_, fun i hi hlen => ?_⟩
  · simp only [length_append, length_singleton] at hq hlap
    by_cases last : q = log.length
    · subst last
      simp [getElem?_set_self slot]
    · have apart := mod_ne_of_lt_lap (n := init.length) (p := q) (q := log.length) (by omega) (by omega)
      rw [getElem?_set_ne (Ne.symm apart), h.recent q (by omega) (by omega), getElem?_append_left (by omega)]
  · simp only [length_append, length_singleton] at hlen
    have : log.length % init.length = log.length := mod_eq_of_lt (by omega)
    rw [getElem?_set_ne (by omega)]
    exact h.rest i hi (by omega)

/-- The slot the next entry will go to holds the entry one lap back, or its initial contents. -/
theorem Holds.next_slot (h : Holds init slots log) :
    (log.length < init.length ∧ slots[log.length % init.length]? = init[log.length]?) ∨
    (init.length ≤ log.length ∧ slots[log.length % init.length]? = log[log.length - init.length]?) := by
  rcases lt_or_ge log.length init.length with lt | ge
  · left
    rw [mod_eq_of_lt lt]
    exact ⟨lt, h.rest _ lt le_rfl⟩
  · right
    refine ⟨ge, ?_⟩
    have := h.recent (log.length - init.length) (by have := h.pos; omega) (by omega)
    rwa [← mod_eq_sub_mod ge] at this

/-! ### Windows of a log -/

/-- Each entry from `from_` on is in its slot. -/
def Window (slots log : List β) (from_ : Nat) : Prop :=
  ∀ q, from_ ≤ q → q < log.length → slots[q % slots.length]? = log[q]?

theorem Window.mono {later : Nat} (h : Window slots log from_) (le : from_ ≤ later) :
    Window slots log later := fun q hq => h q (le.trans hq)

theorem Window.left {more : List β} (h : Window slots (log ++ more) from_) : Window slots log from_ := by
  intro q after before
  rw [h q after (by rw [length_append]; omega), getElem?_append_left before]

theorem Window.write (h : Window slots log from_) (room : log.length < from_ + slots.length) (b : β) :
    Window (slots.set (log.length % slots.length) b) (log ++ [b]) from_ := by
  intro q after before
  rw [length_append, length_singleton] at before
  rw [length_set]
  rcases Nat.lt_succ_iff_lt_or_eq.mp before with lt | rfl
  · have apart := mod_ne_of_lt_lap (n := slots.length) lt (by omega)
    rw [getElem?_set_ne apart.symm, h q after lt, getElem?_append_left lt]
  · have slot : log.length % slots.length < slots.length := mod_lt _ (by omega)
    rw [getElem?_set_self slot, getElem?_concat_length]

/-! ### Slots of consecutive entries -/

/-- The slots of `count` entries from `start` on. -/
def positions (n start count : Nat) : List Nat := (List.range' start count).map (· % n)

@[simp]
theorem length_positions (n start count : Nat) : (positions n start count).length = count := by
  simp [positions]

theorem positions_succ (n start count : Nat) :
    positions n start (count + 1) = start % n :: positions n (start + 1) count := rfl

theorem positions_add (n start j k : Nat) :
    positions n start (j + k) = positions n start j ++ positions n (start + j) k := by
  simp [positions, ← map_append]

/-- Entries that do not reach the end of the ring are in consecutive slots. -/
theorem positions_of_le {count : Nat} (fits : start % n + count ≤ n) :
    positions n start count = range' (start % n) count := by
  refine ext_getElem (by simp) fun i hi _ => ?_
  rw [length_positions] at hi
  have slot : (start % n + i) % n = start % n + i := mod_eq_of_lt (by omega)
  simpa [positions] using slot

/-- Entries that pass the end of the ring are in two runs of slots, and the second is empty unless the
first ends with the ring. -/
theorem positions_of_parts {j k : Nat} (fits : start % n + j ≤ n)
    (parts : start % n + j = n ∨ k = 0) (lap : j + k ≤ n) :
    positions n start (j + k) = range' (start % n) j ++ range' 0 k := by
  rw [positions_add, positions_of_le fits]
  rcases parts with full | rfl
  · have zero : (start + j) % n = 0 := by rw [← mod_add_mod, full, mod_self]
    rw [positions_of_le (by omega), zero]
  · rfl

end Ring
