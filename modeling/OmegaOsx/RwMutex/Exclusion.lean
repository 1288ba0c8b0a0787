import Mathlib.Algebra.Ring.Nat
import OmegaOsx.Lib.Run

/-!
# Exclusion of `RwMutex`

The lock word counts the readers and has a bit for the writer, one for the upgradeable reader and
one for a reader that is being upgraded. Attempts that fail change the word and restore it in
another instruction, and `upgrade` and `downgrade` change it twice. Here each instruction is a step,
and the state counts the guards and the calls between two instructions.
-/

namespace OmegaOsx.RwMutex

/-! ## The lock word -/

def READER : Nat := 1
def WRITER : Nat := 2 ^ 63
def UPGRADEABLE_READER : Nat := 2 ^ 62
def BEING_UPGRADED : Nat := 2 ^ 61
def MAX_READER : Nat := 2 ^ 60

/-- `lock & bit != 0`, for a power of two. -/
abbrev has (lock bit : Nat) : Prop := lock / bit % 2 = 1

def fetchAdd (lock n : Nat) : Nat := (lock + n) % 2 ^ 64

def fetchSub (lock n : Nat) : Nat := (lock + 2 ^ 64 - n) % 2 ^ 64

def fetchOr (lock bit : Nat) : Nat := if has lock bit then lock else lock + bit

/-- `fetch_and(!bit)`. -/
def fetchAndNot (lock bit : Nat) : Nat := if has lock bit then fetchSub lock bit else lock

/-! ## Calls and guards -/

structure State where
  lock : Nat
  /-- The guards that are live. -/
  readers : Nat
  writers : Nat
  upreaders : Nat
  /-- `try_read` and `try_upread` that will fail and have to restore the word. -/
  failingReads : Nat
  failingUpreads : Nat
  /-- Upgradeable guards in the loop of `upgrade`. -/
  upgrading : Nat
  /-- Guards that `try_upgrade` and `try_downgrade` have exchanged; the old guard is still to be dropped. -/
  upgraded : Nat
  downgraded : Nat
  deriving DecidableEq, Repr

inductive Action
  | tryRead
  | restoreRead
  | tryWrite
  | tryUpread
  | restoreUpread
  | upgrade
  /-- By a guard in the loop of `upgrade`, or by any other. -/
  | tryUpgrade (upgrading : Bool)
  | dropUpgraded
  | tryDowngrade
  | dropDowngraded
  | dropRead
  | dropWrite
  | dropUpread
  deriving DecidableEq, Repr

namespace State

def new : State := ⟨0, 0, 0, 0, 0, 0, 0, 0, 0⟩

/-- Calls between two instructions. -/
def calls (s : State) : Nat := s.failingReads + s.failingUpreads + s.upgrading + s.upgraded + s.downgraded

/-- One instruction; `none` if there is no such guard or call. An attempt that fails without having
changed the word leaves the state as it is. -/
def exec (s : State) : Action → Option State
  | .tryRead =>
    let t := { s with lock := fetchAdd s.lock READER }
    if ¬ has s.lock WRITER ∧ ¬ has s.lock BEING_UPGRADED ∧ ¬ has s.lock MAX_READER then
      some { t with readers := s.readers + 1 }
    else some { t with failingReads := s.failingReads + 1 }
  | .restoreRead =>
    if 0 < s.failingReads then
      some { s with lock := fetchSub s.lock READER, failingReads := s.failingReads - 1 }
    else none
  | .tryWrite => some (if s.lock = 0 then { s with lock := WRITER, writers := s.writers + 1 } else s)
  | .tryUpread =>
    let t := { s with lock := fetchOr s.lock UPGRADEABLE_READER }
    if has s.lock UPGRADEABLE_READER then some t
    else if has s.lock WRITER then some { t with failingUpreads := s.failingUpreads + 1 }
    else some { t with upreaders := s.upreaders + 1 }
  | .restoreUpread =>
    if 0 < s.failingUpreads then
      some { s with lock := fetchSub s.lock UPGRADEABLE_READER, failingUpreads := s.failingUpreads - 1 }
    else none
  | .upgrade =>
    if 0 < s.upreaders then
      some { s with
        lock := fetchOr s.lock BEING_UPGRADED, upreaders := s.upreaders - 1, upgrading := s.upgrading + 1 }
    else none
  | .tryUpgrade upgrading =>
    if 0 < (if upgrading then s.upgrading else s.upreaders) then
      if s.lock = UPGRADEABLE_READER + BEING_UPGRADED then
        let t := { s with lock := WRITER + UPGRADEABLE_READER, upgraded := s.upgraded + 1 }
        some (if upgrading then { t with upgrading := s.upgrading - 1 } else { t with upreaders := s.upreaders - 1 })
      else some s
    else none
  | .dropUpgraded =>
    if 0 < s.upgraded then
      some { s with
        lock := fetchSub s.lock UPGRADEABLE_READER, upgraded := s.upgraded - 1, writers := s.writers + 1 }
    else none
  | .tryDowngrade =>
    if 0 < s.writers then
      some (if s.lock = WRITER then
        { s with lock := UPGRADEABLE_READER, writers := s.writers - 1, downgraded := s.downgraded + 1 } else s)
    else none
  | .dropDowngraded =>
    if 0 < s.downgraded then
      some { s with
        lock := fetchAndNot s.lock WRITER, downgraded := s.downgraded - 1, upreaders := s.upreaders + 1 }
    else none
  | .dropRead =>
    if 0 < s.readers then some { s with lock := fetchSub s.lock READER, readers := s.readers - 1 } else none
  | .dropWrite =>
    if 0 < s.writers then some { s with lock := fetchAndNot s.lock WRITER, writers := s.writers - 1 } else none
  | .dropUpread =>
    if 0 < s.upreaders then
      some { s with lock := fetchSub s.lock UPGRADEABLE_READER, upreaders := s.upreaders - 1 }
    else none

/-- Each thread makes one call at a time, and there are fewer than `2 ^ 59` of them. -/
def Step (s : State) (a : Action) (t : State) : Prop := s.exec a = some t ∧ t.calls < 2 ^ 59

/-! ## The parts of the word -/

def word (w u b r : Nat) : Nat := w * WRITER + u * UPGRADEABLE_READER + b * BEING_UPGRADED + r

section word

variable {w u b r : Nat} (hw : w ≤ 1) (hu : u ≤ 1) (hb : b ≤ 1) (hr : r + 1 < BEING_UPGRADED)
include hw hu hb hr

theorem word_bits : (has (word w u b r) WRITER ↔ w = 1) ∧ (has (word w u b r) UPGRADEABLE_READER ↔ u = 1) ∧
    (has (word w u b r) BEING_UPGRADED ↔ b = 1) ∧ (has (word w u b r) MAX_READER ↔ MAX_READER ≤ r) := by
  simp only [word, WRITER, UPGRADEABLE_READER, BEING_UPGRADED, MAX_READER] at *
  obtain rfl | rfl : u = 0 ∨ u = 1 := by omega
  all_goals obtain rfl | rfl : b = 0 ∨ b = 1 := by omega
  all_goals omega

theorem fetchAdd_reader : fetchAdd (word w u b r) READER = word w u b (r + 1) := by
  simp only [fetchAdd, word, READER, WRITER, UPGRADEABLE_READER, BEING_UPGRADED] at *
  omega

theorem fetchSub_reader : fetchSub (word w u b (r + 1)) READER = word w u b r := by
  simp only [fetchSub, word, READER, WRITER, UPGRADEABLE_READER, BEING_UPGRADED] at *
  omega

theorem fetchOr_upreader : fetchOr (word w u b r) UPGRADEABLE_READER = word w 1 b r := by
  simp only [fetchOr, (word_bits hw hu hb hr).2.1]
  simp only [word, WRITER, UPGRADEABLE_READER, BEING_UPGRADED]
  split <;> omega

theorem fetchOr_upgraded : fetchOr (word w u b r) BEING_UPGRADED = word w u 1 r := by
  simp only [fetchOr, (word_bits hw hu hb hr).2.2.1]
  simp only [word, WRITER, UPGRADEABLE_READER, BEING_UPGRADED]
  split <;> omega

theorem fetchAndNot_writer : fetchAndNot (word w u b r) WRITER = word 0 u b r := by
  simp only [fetchAndNot, (word_bits hw hu hb hr).1]
  simp only [fetchSub, word, WRITER, UPGRADEABLE_READER, BEING_UPGRADED] at *
  split <;> omega

omit hu in
theorem fetchSub_upreader : fetchSub (word w 1 b r) UPGRADEABLE_READER = word w 0 b r := by
  simp only [fetchSub, word, WRITER, UPGRADEABLE_READER, BEING_UPGRADED] at *
  omega

end word

/-! ## The owners of the bits -/

/-- Who owns the bit of the writer. -/
def writing (s : State) : Nat := s.writers + s.upgraded

/-- Who owns the bit of the upgradeable reader. -/
def upreading (s : State) : Nat := s.upreaders + s.upgrading + s.upgraded + s.downgraded + s.failingUpreads

structure Inv (s : State) : Prop where
  word : s.lock = word s.writing s.upreading s.upgrading (s.readers + s.failingReads)
  writer : s.writing ≤ 1
  upreader : s.upreading ≤ 1
  exclusive : s.writing = 1 → s.readers + s.upreaders + s.upgrading + s.downgraded = 0
  readers : s.readers ≤ MAX_READER
  calls : s.calls < 2 ^ 59

theorem new_inv : new.Inv := by
  constructor <;> simp [new, State.word, writing, upreading, calls]

variable {s t : State}

/-- The limits on the counts, in the form the arithmetic below needs. -/
theorem Inv.limits (inv : s.Inv) : s.writers + s.upgraded ≤ 1 ∧
    s.upreaders + s.upgrading + s.upgraded + s.downgraded + s.failingUpreads ≤ 1 ∧
    (s.writers + s.upgraded = 1 → s.readers + s.upreaders + s.upgrading + s.downgraded = 0) ∧
    s.readers ≤ 2 ^ 60 ∧
    s.failingReads + s.failingUpreads + s.upgrading + s.upgraded + s.downgraded < 2 ^ 59 :=
  ⟨inv.writer, inv.upreader, inv.exclusive, inv.readers, inv.calls⟩

/-- A word whose parts are the counts of the state. -/
theorem Inv.of_word {lock r w u fr fu upgrading upgraded downgraded wr up b rd : Nat}
    (parts : lock = State.word wr up b rd)
    (few : State.calls ⟨lock, r, w, u, fr, fu, upgrading, upgraded, downgraded⟩ < 2 ^ 59)
    (counts : wr = w + upgraded ∧ up = u + upgrading + upgraded + downgraded + fu ∧ b = upgrading ∧
    rd = r + fr ∧
      wr ≤ 1 ∧ up ≤ 1 ∧ (wr = 1 → r + u + upgrading + downgraded = 0) ∧ r ≤ 2 ^ 60) :
    Inv ⟨lock, r, w, u, fr, fu, upgrading, upgraded, downgraded⟩ := by
  obtain ⟨rfl, rfl, rfl, rfl, writer, upreader, exclusive, readers⟩ := counts
  exact ⟨parts, writer, upreader, exclusive, readers, few⟩

namespace Inv

section inv

variable (inv : s.Inv)
include inv

theorem fits : s.upgrading ≤ 1 ∧ s.readers + s.failingReads + 1 < BEING_UPGRADED := by
  have limits := inv.limits
  unfold BEING_UPGRADED
  omega

theorem bits : (has s.lock WRITER ↔ s.writing = 1) ∧ (has s.lock UPGRADEABLE_READER ↔ s.upreading = 1) ∧
    (has s.lock BEING_UPGRADED ↔ s.upgrading = 1) ∧
    (has s.lock MAX_READER ↔ MAX_READER ≤ s.readers + s.failingReads) :=
  inv.word ▸ word_bits inv.writer inv.upreader inv.fits.1 inv.fits.2

theorem subReader (some : 0 < s.readers + s.failingReads) :
    fetchSub s.lock READER = State.word s.writing s.upreading s.upgrading (s.readers + s.failingReads - 1) := by
  have fits := inv.fits
  have sub := fetchSub_reader inv.writer inv.upreader fits.1
    (show s.readers + s.failingReads - 1 + 1 < BEING_UPGRADED by omega)
  rwa [Nat.sub_add_cancel some, ← inv.word] at sub

theorem subUpreader (some : 0 < s.upreading) :
    fetchSub s.lock UPGRADEABLE_READER = State.word s.writing 0 s.upgrading (s.readers + s.failingReads) := by
  have one : s.upreading = 1 := le_antisymm inv.upreader some
  rw [inv.word, one, fetchSub_upreader inv.writer inv.fits.1 inv.fits.2]

theorem clearWriter :
    fetchAndNot s.lock WRITER = State.word 0 s.upreading s.upgrading (s.readers + s.failingReads) := by
  rw [inv.word, fetchAndNot_writer inv.writer inv.upreader inv.fits.1 inv.fits.2]

end inv

/-! ## One lemma for each instruction -/

variable (inv : s.Inv) (few : t.calls < 2 ^ 59)
include inv few

theorem tryRead (returns : s.exec .tryRead = some t) : t.Inv := by
  obtain ⟨writerBit, -, -, maxBit⟩ := inv.bits
  have added : fetchAdd s.lock READER = State.word s.writing s.upreading s.upgrading
    (s.readers + s.failingReads + 1) := by
    rw [inv.word, fetchAdd_reader inv.writer inv.upreader inv.fits.1 inv.fits.2]
  simp only [exec, writerBit, maxBit] at returns
  split at returns
  · next free =>
    cases returns
    refine ⟨added.trans (by rw [Nat.add_right_comm]; rfl), inv.writer, inv.upreader,
      fun w => absurd w free.1, ?_, few⟩
    exact Nat.lt_of_not_le fun full => free.2.2 (Nat.le_add_right_of_le full)
  · cases returns
    exact ⟨added, inv.writer, inv.upreader, inv.exclusive, inv.readers, few⟩

theorem tryWrite (returns : s.exec .tryWrite = some t) : t.Inv := by
  simp only [exec] at returns
  split at returns
  · next zero =>
    cases returns
    rw [inv.word] at zero
    have limits := inv.limits
    have parts : WRITER = State.word 1 0 0 0 := rfl
    refine .of_word parts few ?_
    simp only [State.word, writing, upreading, WRITER, UPGRADEABLE_READER, BEING_UPGRADED] at zero
    omega
  · cases returns
    exact inv

theorem tryUpread (returns : s.exec .tryUpread = some t) : t.Inv := by
  obtain ⟨writerBit, upreaderBit, -⟩ := inv.bits
  have limits := inv.limits
  have set : fetchOr s.lock UPGRADEABLE_READER = State.word s.writing 1 s.upgrading (s.readers + s.failingReads) := by
    rw [inv.word, fetchOr_upreader inv.writer inv.upreader inv.fits.1 inv.fits.2]
  simp only [exec, writerBit, upreaderBit] at returns
  split at returns
  · next taken =>
    cases returns
    exact ⟨taken ▸ set, inv.writer, inv.upreader, inv.exclusive, inv.readers, few⟩
  · split at returns
    all_goals
      cases returns
      refine .of_word set few ?_
      unfold writing upreading at *
      omega

theorem upgrade (returns : s.exec .upgrade = some t) : t.Inv := by
  simp only [exec, Option.ite_none_right_eq_some, Option.some.injEq] at returns
  obtain ⟨some, rfl⟩ := returns
  have set : fetchOr s.lock BEING_UPGRADED = State.word s.writing s.upreading 1 (s.readers + s.failingReads) := by
    rw [inv.word, fetchOr_upgraded inv.writer inv.upreader inv.fits.1 inv.fits.2]
  refine .of_word set few ?_
  have limits := inv.limits
  unfold writing upreading
  omega

theorem tryUpgrade {upgrading : Bool} (returns : s.exec (.tryUpgrade upgrading) = some t) : t.Inv := by
  have limits := inv.limits
  have parts : WRITER + UPGRADEABLE_READER = State.word 1 1 0 0 := rfl
  simp only [exec, Option.ite_none_right_eq_some] at returns
  obtain ⟨some, returns⟩ := returns
  split at returns
  · next only =>
    rw [inv.word] at only
    simp only [State.word, writing, upreading, WRITER, UPGRADEABLE_READER, BEING_UPGRADED] at only
    cases upgrading with
    | true =>
      cases returns
      refine .of_word parts few ?_
      simp only [if_true] at some
      omega
    | false =>
      cases returns
      refine .of_word parts few ?_
      simp only [Bool.false_eq_true, if_false] at some
      omega
  · cases returns
    exact inv

theorem tryDowngrade (returns : s.exec .tryDowngrade = some t) : t.Inv := by
  simp only [exec, Option.ite_none_right_eq_some, Option.some.injEq] at returns
  obtain ⟨some, returns⟩ := returns
  split at returns
  · next only =>
    cases returns
    rw [inv.word] at only
    have limits := inv.limits
    have parts : UPGRADEABLE_READER = State.word 0 1 0 0 := rfl
    refine .of_word parts few ?_
    simp only [State.word, writing, upreading, WRITER, UPGRADEABLE_READER, BEING_UPGRADED] at only
    omega
  · cases returns
    exact inv

omit few in
theorem step {a : Action} (step : Step s a t) : t.Inv := by
  obtain ⟨returns, few⟩ := step
  have limits := inv.limits
  cases a
  case tryRead => exact inv.tryRead few returns
  case tryWrite => exact inv.tryWrite few returns
  case tryUpread => exact inv.tryUpread few returns
  case upgrade => exact inv.upgrade few returns
  case tryUpgrade => exact inv.tryUpgrade few returns
  case tryDowngrade => exact inv.tryDowngrade few returns
  -- the instructions that give up a part of the word
  all_goals
    simp only [exec, Option.ite_none_right_eq_some, Option.some.injEq] at returns
    obtain ⟨some, rfl⟩ := returns
  case restoreRead | dropRead =>
    refine .of_word (inv.subReader (by omega)) few ?_
    unfold writing upreading
    omega
  case restoreUpread | dropUpread | dropUpgraded =>
    refine .of_word (inv.subUpreader (by unfold upreading; omega)) few ?_
    unfold writing
    omega
  case dropWrite | dropDowngraded =>
    refine .of_word inv.clearWriter few ?_
    unfold upreading
    omega

end Inv

/-- A live write guard excludes all other guards, and there is one upgradeable guard at most. While
there is one, or it is being exchanged for a write guard or has been exchanged for one, nobody else
writes. Without guards and calls in progress the word is zero. -/
theorem run_exclusive {actions : List Action} (run : Labelled.Run Step new actions s) :
    (0 < s.writers → s.writers = 1 ∧ s.readers = 0 ∧ s.upreaders = 0) ∧
    s.upreaders + s.upgrading + s.upgraded + s.downgraded ≤ 1 ∧
    (0 < s.upreaders + s.upgrading + s.upgraded + s.downgraded → s.writers = 0) ∧
    (s.readers = 0 → s.writers = 0 → s.upreaders = 0 → s.calls = 0 → s.lock = 0) := by
  have inv : s.Inv := run.invariant (fun _ _ _ inv step => inv.step step) new_inv
  obtain ⟨writer, upreader, exclusive, -⟩ := inv.limits
  refine ⟨fun live => ?_, ?_, fun live => ?_, fun r w u calls => ?_⟩
  · omega
  · omega
  · by_contra live'
    omega
  · simp only [State.calls] at calls
    rw [inv.word]
    simp only [Nat.add_eq_zero_iff] at calls
    simp [State.word, writing, upreading, r, w, u, calls]

/-- An upgradeable guard is upgraded. -/
theorem run_exclusive_upgrade :
    ∃ s, Labelled.Run Step new [.tryUpread, .upgrade, .tryUpgrade true, .dropUpgraded] s ∧
    s.writers = 1 ∧ s.readers = 0 ∧ s.upreaders = 0 := by
  have run : Labelled.Run Step new [.tryUpread, .upgrade, .tryUpgrade true, .dropUpgraded]
    ⟨WRITER, 0, 1, 0, 0, 0, 0, 0, 0⟩ :=
    .cons (t := ⟨UPGRADEABLE_READER, 0, 0, 1, 0, 0, 0, 0, 0⟩) ⟨by decide +kernel, by decide⟩ <|
    .cons (t := ⟨UPGRADEABLE_READER + BEING_UPGRADED, 0, 0, 0, 0, 0, 1, 0, 0⟩) ⟨by decide +kernel, by decide⟩ <|
    .cons (t := ⟨WRITER + UPGRADEABLE_READER, 0, 0, 0, 0, 0, 0, 1, 0⟩) ⟨by decide +kernel, by decide⟩ <|
    .single ⟨by decide +kernel, by decide⟩
  exact ⟨_, run, (run_exclusive run).1 (by decide)⟩

end State

end OmegaOsx.RwMutex
