import Mathlib.Data.List.Basic

/-!
# Ranges of bits

Bitmaps as functions: how many bits below a bound are clear (`countClear`), the first clear one
(`nextClear`), and what setting or clearing a range changes.
-/

namespace BitRange

/-- All bits from `start` up to `stop` are `v`. -/
def All (v : Bool) (bits : Nat → Bool) (start stop : Nat) : Prop := ∀ i, start ≤ i → i < stop → bits i = v

/-- The bits from `start` up to `stop` become `v`. -/
def setRange (v : Bool) (bits : Nat → Bool) (start stop : Nat) (i : Nat) : Bool :=
  if start ≤ i ∧ i < stop then v else bits i

/-- The number of clear bits below `n`. -/
def countClear (bits : Nat → Bool) : Nat → Nat
  | 0 => 0
  | n + 1 => countClear bits n + if bits n then 0 else 1

/-- The first clear bit from `start` on, within `fuel` bits. -/
def nextClear (bits : Nat → Bool) : Nat → Nat → Nat
  | 0, start => start
  | fuel + 1, start => if bits start then nextClear bits fuel (start + 1) else start

variable {bits bits' : Nat → Bool} {v : Bool} {start stop n i : Nat}

theorem setRange_of_mem (h : start ≤ i ∧ i < stop) : setRange v bits start stop i = v := if_pos h

theorem setRange_of_not_mem (h : ¬ (start ≤ i ∧ i < stop)) : setRange v bits start stop i = bits i := if_neg h

theorem setRange_undo (old : All v bits start stop) (w : Bool) :
    setRange v (setRange w bits start stop) start stop = bits := by
  funext i
  by_cases mem : start ≤ i ∧ i < stop
  · rw [setRange_of_mem mem, old i mem.1 mem.2]
  · rw [setRange_of_not_mem mem, setRange_of_not_mem mem]

theorem setRange_empty (le : stop ≤ start) : setRange v bits start stop = bits :=
  funext fun _ => setRange_of_not_mem (by omega)

theorem setRange_append {mid : Nat} (le : start ≤ mid) (le' : mid ≤ stop) :
    setRange v (setRange v bits start mid) mid stop = setRange v bits start stop := by
  funext i
  by_cases late : mid ≤ i ∧ i < stop
  · rw [setRange_of_mem late, setRange_of_mem (by omega)]
  rw [setRange_of_not_mem late]
  by_cases early : start ≤ i ∧ i < mid
  · rw [setRange_of_mem early, setRange_of_mem (by omega)]
  · rw [setRange_of_not_mem early, setRange_of_not_mem (by omega)]

theorem countClear_le (bits : Nat → Bool) (n : Nat) : countClear bits n ≤ n := by
  induction n with
  | zero => exact Nat.le_refl 0
  | succ n ih =>
    rw [countClear]
    split <;> omega

theorem countClear_pos : 0 < countClear bits n ↔ ∃ i < n, bits i = false := by
  induction n with
  | zero => exact ⟨fun h => absurd h (Nat.lt_irrefl 0), fun ⟨_, lt, _⟩ => absurd lt (Nat.not_lt_zero _)⟩
  | succ n ih =>
    rw [countClear]
    cases last : bits n with
    | false => exact ⟨fun _ => ⟨n, Nat.lt_succ_self n, last⟩, fun _ => Nat.succ_pos _⟩
    | true =>
      refine ih.trans ⟨fun ⟨i, lt, clear⟩ => ⟨i, Nat.lt_succ_of_lt lt, clear⟩,
        fun ⟨i, lt, clear⟩ => ⟨i, ?_, clear⟩⟩
      rcases Nat.lt_succ_iff_lt_or_eq.mp lt with lt | rfl
      · exact lt
      · rw [last] at clear
        cases clear

/-- Setting clear bits leaves so many fewer. -/
theorem countClear_set_true (clear : All false bits start stop) (n : Nat) :
    countClear (setRange true bits start stop) n + (min stop n - start) = countClear bits n := by
  induction n with
  | zero => simp [countClear]
  | succ n ih =>
    rw [countClear, countClear]
    by_cases mem : start ≤ n ∧ n < stop
    · rw [setRange_of_mem mem, clear n mem.1 mem.2, if_pos rfl, if_neg Bool.false_ne_true]
      omega
    · rw [setRange_of_not_mem mem]
      omega

/-- Clearing set bits leaves so many more. -/
theorem countClear_set_false (set : All true bits start stop) (n : Nat) :
    countClear (setRange false bits start stop) n = countClear bits n + (min stop n - start) := by
  have clear : All false (setRange false bits start stop) start stop := fun i le lt => setRange_of_mem ⟨le, lt⟩
  have count := countClear_set_true clear n
  rw [setRange_undo set] at count
  omega

/-- What makes a bit the first clear one. -/
theorem nextClear_spec (bits : Nat → Bool) (fuel start : Nat) :
    start ≤ nextClear bits fuel start ∧ nextClear bits fuel start ≤ start + fuel ∧
      All true bits start (nextClear bits fuel start) ∧
      (nextClear bits fuel start < start + fuel → bits (nextClear bits fuel start) = false) := by
  induction fuel generalizing start with
  | zero => exact ⟨Nat.le_refl _, Nat.le_refl _, fun i le lt => absurd lt (Nat.not_lt.mpr le),
    fun lt => absurd lt (Nat.lt_irrefl _)⟩
  | succ fuel ih =>
    rw [nextClear]
    cases first : bits start with
    | false =>
      exact ⟨Nat.le_refl _, Nat.le_add_right _ _, fun i le lt => absurd lt (Nat.not_lt.mpr le), fun _ => first⟩
    | true =>
      rw [if_pos rfl]
      obtain ⟨le, bound, before, clear⟩ := ih (start + 1)
      refine ⟨by omega, by omega, fun i low high => ?_, fun lt => clear (by omega)⟩
      rcases Nat.eq_or_lt_of_le low with rfl | low
      · exact first
      · exact before i low high

/-- The first clear bit is the only bit like it. -/
theorem nextClear_eq {fuel x : Nat} (le : start ≤ x) (bound : x ≤ start + fuel) (before : All true bits start x)
    (clear : x < start + fuel → bits x = false) : nextClear bits fuel start = x := by
  obtain ⟨le', bound', before', clear'⟩ := nextClear_spec bits fuel start
  rcases Nat.lt_trichotomy (nextClear bits fuel start) x with lt | same | gt
  · have := before _ le' lt
    rw [clear' (by omega)] at this
    cases this
  · exact same
  · have := before' x le gt
    rw [clear (by omega)] at this
    cases this

end BitRange
