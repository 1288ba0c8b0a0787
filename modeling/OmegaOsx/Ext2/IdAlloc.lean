import OmegaOsx.Lib.BitRange
import OmegaOsx.MlsDisk.Basic

/-!
# The id allocator

`IdAlloc` of the crate `id-alloc`: a bitmap of the ids in use, with the first one that is not. Indexing
out of bounds panics, and debug assertions are on.

`WF` says that `first_available_id` is what its name says; every call keeps it. `allocConsecutive_first_fit_iff`
says when `alloc_consecutive` finds the first free range of the requested length: a single id asked for
when none is free is taken beyond the end.
-/

namespace OmegaOsx.Ext2

open BitRange

inductive Errno
  | enospc
  | einval
  | enoent
  | eexist
  | enodata
  | erange
  | eio
  | efault
  deriving DecidableEq, Repr

/-- How a call can end without a value. -/
inductive Fault
  | error (errno : Errno) (msg : String)
  | panic (msg : String)
  deriving DecidableEq, Repr

abbrev Res (α : Type) := Except Fault α

def panicWith {α : Type} (msg : String) : Res α := .error (.panic msg)

/-- `assert!`. -/
def require (c : Prop) [Decidable c] (msg : String) : Res Unit := if c then .ok () else panicWith msg

theorem require_of {c : Prop} [Decidable c] (msg : String) (h : c) : require c msg = .ok () := if_pos h

theorem require_ok {c : Prop} [Decidable c] {msg : String} {u : Unit} : require c msg = .ok u ↔ c := by
  unfold require panicWith
  split
  · next h => exact ⟨fun _ => h, fun _ => rfl⟩
  · next h => exact ⟨fun eq => (by cases eq), fun h' => absurd h' h⟩

structure IdAlloc where
  len : Nat
  /-- The bits of `bitset`, false from `len` on. -/
  bits : Nat → Bool
  firstAvailableId : Nat

namespace IdAlloc

def withCapacity (capacity : Nat) : IdAlloc := ⟨capacity, fun _ => false, 0⟩

def fromBytesWithCapacity (slice : List UInt8) (capacity : Nat) : IdAlloc :=
  let bits := fun i => decide (i < capacity) && ((slice.map UInt8.toNat).getD (i / 8) 0).testBit (i % 8)
  ⟨capacity, bits, nextClear bits capacity 0⟩

variable (a : IdAlloc)

def isAllocated (id : Nat) : Bool := a.bits id

/-- The first free id from `start` on, or the length. -/
def findFree (start : Nat) : Nat := nextClear a.bits (a.len - start) start

/-- The loop of `alloc_consecutive`; all ids of the current range are free. -/
def scan (a : IdAlloc) (count : Nat) : Nat → Nat → Nat → Nat × Nat
  | 0, start, stop => (start, stop)
  | fuel + 1, start, stop =>
    if stop - start < count ∧ stop < a.len then
      if a.isAllocated stop then scan a count fuel (stop + 1) (stop + 1) else scan a count fuel start (stop + 1)
    else (start, stop)

/-- Sets a found range. -/
def take (start stop : Nat) : Res IdAlloc :=
  if a.len < stop ∨ a.len ≤ a.firstAvailableId then panicWith "index out of bounds"
  else
    let taken := { a with bits := setRange true a.bits start stop }
    .ok { taken with
      firstAvailableId :=
        if taken.isAllocated a.firstAvailableId then taken.findFree stop else a.firstAvailableId }

def allocConsecutive (count : Nat) : Res (Option (Nat × Nat) × IdAlloc) :=
  if count = 0 then .ok (none, a)
  else
    let (start, stop) := a.scan count a.len a.firstAvailableId (a.firstAvailableId + 1)
    if stop - start < count then .ok (none, a)
    else do
      let a ← a.take start stop
      pure (some (start, stop), a)

/-- The ids of the range must be allocated. -/
def freeConsecutive (start stop : Nat) : Res IdAlloc :=
  if stop ≤ start then .ok a
  else if a.len < stop then panicWith "index out of bounds"
  else if ∀ i < stop - start, a.isAllocated (start + i) then
    .ok { a with
      bits := setRange false a.bits start stop
      firstAvailableId := min start a.firstAvailableId }
  else panicWith "assertion failed: self.is_allocated(id)"

/-- `alloc` of a single id. -/
def allocOne : Option (Nat × IdAlloc) :=
  if a.firstAvailableId < a.len then
    let id := a.firstAvailableId
    let taken := { a with bits := setRange true a.bits id (id + 1) }
    some (id, { taken with firstAvailableId := taken.findFree (id + 1) })
  else none

/-- `free` of a single id. -/
def freeOne (id : Nat) : Res IdAlloc := a.freeConsecutive id (id + 1)

def allocSpecific (id : Nat) : Res (Option Nat × IdAlloc) :=
  if a.len ≤ id then panicWith "index out of bounds"
  else if a.isAllocated id then .ok (none, a)
  else
    let taken := { a with bits := setRange true a.bits id (id + 1) }
    .ok (some id, { taken with
      firstAvailableId := if id = a.firstAvailableId then taken.findFree (id + 1) else a.firstAvailableId })

/-! ### Well-formed allocators -/

/-- `first_available_id` is the first free id. -/
structure WF (a : IdAlloc) : Prop where
  first : a.firstAvailableId = nextClear a.bits a.len 0

def numFree : Nat := countClear a.bits a.len

/-- A range of free ids. -/
structure Free (a : IdAlloc) (start stop : Nat) : Prop where
  le : start ≤ stop
  within : stop ≤ a.len
  clear : All false a.bits start stop

variable {a a' : IdAlloc} {start stop count : Nat}

namespace WF

theorem first_le (wf : a.WF) : a.firstAvailableId ≤ a.len := by
  have := (nextClear_spec a.bits a.len 0).2.1
  rw [← wf.first] at this
  omega

theorem before (wf : a.WF) : All true a.bits 0 a.firstAvailableId := by
  rw [wf.first]
  exact (nextClear_spec a.bits a.len 0).2.2.1

theorem first_free (wf : a.WF) (lt : a.firstAvailableId < a.len) : a.bits a.firstAvailableId = false := by
  have := (nextClear_spec a.bits a.len 0).2.2.2
  rw [← wf.first] at this
  exact this (by omega)

/-- Free ids are not before the first one. -/
theorem first_le_of_clear (wf : a.WF) {i : Nat} (clear : a.bits i = false) : a.firstAvailableId ≤ i := by
  refine not_lt.mp fun lt => ?_
  rw [wf.before i (Nat.zero_le i) lt] at clear
  cases clear

theorem first_lt (wf : a.WF) (pos : 0 < a.numFree) : a.firstAvailableId < a.len := by
  obtain ⟨i, lt, clear⟩ := countClear_pos.mp pos
  exact lt_of_le_of_lt (wf.first_le_of_clear clear) lt

theorem of_first (le : a.firstAvailableId ≤ a.len) (before : All true a.bits 0 a.firstAvailableId)
    (free : a.firstAvailableId < a.len → a.bits a.firstAvailableId = false) : a.WF :=
  ⟨(nextClear_eq (Nat.zero_le _) (by omega) before fun lt => free (by omega)).symm⟩

end WF

/-! ### Allocating a range -/

/-- The first free range of `count` ids starts at `start`. -/
structure FirstFit (a : IdAlloc) (count start : Nat) : Prop where
  free : a.Free start (start + count)
  first : ∀ s < start, ¬ a.Free s (s + count)

/-- The range the loop ends with is free, and no range of `count` ids before it is. -/
theorem scan_spec (count fuel : Nat) {start stop : Nat} (enough : a.len ≤ stop + fuel) (free : a.Free start stop)
    (short : stop - start ≤ count) (first : ∀ s < start, ¬ a.Free s (s + count)) :
    a.Free (a.scan count fuel start stop).1 (a.scan count fuel start stop).2 ∧
      (a.scan count fuel start stop).2 - (a.scan count fuel start stop).1 ≤ count ∧
      (∀ s < (a.scan count fuel start stop).1, ¬ a.Free s (s + count)) ∧
      ((a.scan count fuel start stop).2 - (a.scan count fuel start stop).1 < count →
        a.len ≤ (a.scan count fuel start stop).2) := by
  induction fuel generalizing start stop with
  | zero => exact ⟨free, short, first, fun _ => enough⟩
  | succ fuel ih =>
    rw [scan]
    split
    · next going =>
      split
      · next taken =>
        -- A range that starts before the taken id and is long enough would hold it.
        refine ih (by omega) ⟨le_rfl, going.2, fun i le lt => absurd lt (not_lt.mpr le)⟩ (by omega) ?_
        intro s lt run
        by_cases before : s < start
        · exact first s before run
        · have := run.clear stop (by omega) (by omega)
          rw [show a.bits stop = true from taken] at this
          cases this
      · next notTaken =>
        refine ih (by omega) ⟨by have := free.le; omega, going.2, fun i le lt => ?_⟩ (by omega) first
        rcases Nat.lt_succ_iff_lt_or_eq.mp lt with lt | rfl
        · exact free.clear i le lt
        · exact Bool.eq_false_iff.mpr notTaken
    · next done => exact ⟨free, short, first, fun lt => by omega⟩

/-- The range that `alloc_consecutive` tries to take. -/
theorem scan_ok (wf : a.WF) (pos : 0 < count) (avail : 0 < a.numFree) {start stop : Nat}
    (found : a.scan count a.len a.firstAvailableId (a.firstAvailableId + 1) = (start, stop)) :
    (stop - start < count ∧ ∀ s, ¬ a.Free s (s + count)) ∨
    (stop = start + count ∧ a.FirstFit count start) := by
  have lt := wf.first_lt avail
  have here : a.Free a.firstAvailableId (a.firstAvailableId + 1) := by
    refine ⟨Nat.le_succ _, lt, fun i le lt' => ?_⟩
    obtain rfl : i = a.firstAvailableId := by omega
    exact wf.first_free lt
  have before : ∀ s < a.firstAvailableId, ¬ a.Free s (s + count) := by
    intro s lt' run
    have := run.clear s (le_refl s) (by omega)
    rw [wf.before s (Nat.zero_le s) lt'] at this
    cases this
  obtain ⟨free, short, first, exceeds⟩ := scan_spec count a.len (by omega) here (by omega) before
  rw [found] at free short first exceeds
  have := free.le
  by_cases enough : stop - start < count
  · refine .inl ⟨enough, fun s run => ?_⟩
    by_cases before : s < start
    · exact first s before run
    · have := run.within
      omega
  · obtain rfl : stop = start + count := by
      omega
    exact .inr ⟨rfl, free, first⟩

theorem take_ok (wf : a.WF) (free : a.Free start stop) (lt : start < stop) :
    ∃ a', a.take start stop = .ok a' ∧ a'.WF ∧ a'.len = a.len ∧ a'.bits = setRange true a.bits start stop := by
  have first_le := wf.first_le_of_clear (free.clear start le_rfl lt)
  have within := free.within
  have inside : ¬ (a.len < stop ∨ a.len ≤ a.firstAvailableId) := by omega
  refine ⟨_, if_neg inside, WF.of_first ?_ ?_ ?_, rfl, rfl⟩
  all_goals
    dsimp only
    have found := nextClear_spec (setRange true a.bits start stop) (a.len - stop) stop
    split
  · unfold findFree
    dsimp only
    omega
  · exact wf.first_le
  · next taken =>
    -- The ids before the range and those of the range are all in use.
    intro i _ below
    have here : start ≤ a.firstAvailableId ∧ a.firstAvailableId < stop := by
      refine Classical.byContradiction fun outside => ?_
      have clear := wf.first_free (Nat.lt_of_not_le fun le => inside (.inr le))
      have same : setRange true a.bits start stop a.firstAvailableId = a.bits a.firstAvailableId :=
        setRange_of_not_mem outside
      exact Bool.false_ne_true (clear.symm.trans (same.symm.trans taken))
    by_cases mem : start ≤ i ∧ i < stop
    · exact setRange_of_mem mem
    by_cases after : stop ≤ i
    · exact found.2.2.1 i after below
    · rw [setRange_of_not_mem mem]
      exact wf.before i (Nat.zero_le i) (by omega)
  · intro i _ below
    by_cases mem : start ≤ i ∧ i < stop
    · exact setRange_of_mem mem
    · rw [setRange_of_not_mem mem]
      exact wf.before i (Nat.zero_le i) below
  · intro below
    refine found.2.2.2 ?_
    unfold findFree at below
    dsimp only at below
    omega
  · next notTaken =>
    intro _
    exact Bool.eq_false_iff.mpr notTaken

/-- `alloc_consecutive` takes the first free range that is long enough, if there is one. -/
theorem allocConsecutive_ok (wf : a.WF) (pos : 0 < count) (avail : 0 < a.numFree) :
    (a.allocConsecutive count = .ok (none, a) ∧ ∀ s, ¬ a.Free s (s + count)) ∨
      ∃ start a', a.allocConsecutive count = .ok (some (start, start + count), a') ∧
        a.FirstFit count start ∧ a'.WF ∧
        a'.len = a.len ∧ a'.bits = setRange true a.bits start (start + count) := by
  unfold allocConsecutive
  rw [if_neg (ne_of_gt pos)]
  rcases found : a.scan count a.len a.firstAvailableId (a.firstAvailableId + 1) with ⟨start, stop⟩
  dsimp only
  rcases scan_ok wf pos avail found with ⟨short, none⟩ | ⟨rfl, fit⟩
  · exact .inl ⟨if_pos short, none⟩
  rw [if_neg (by omega)]
  obtain ⟨a', eq, wf', len, bits⟩ := take_ok wf fit.free (by omega)
  rw [eq]
  exact .inr ⟨start, a', rfl, fit, wf', len, bits⟩

theorem freeConsecutive_ok (wf : a.WF) (lt : start < stop) (within : stop ≤ a.len)
    (set : All true a.bits start stop) :
    ∃ a', a.freeConsecutive start stop = .ok a' ∧ a'.WF ∧ a'.len = a.len ∧
      a'.bits = setRange false a.bits start stop := by
  unfold freeConsecutive
  have asserted : ∀ i < stop - start, a.isAllocated (start + i) :=
    fun i below => set (start + i) (by omega) (by omega)
  rw [if_neg (not_le.mpr lt), if_neg (not_lt.mpr within), if_pos asserted]
  refine ⟨_, rfl, WF.of_first ?_ ?_ ?_, rfl, rfl⟩
  · dsimp only
    omega
  · intro i _ below
    dsimp only at below ⊢
    rw [setRange_of_not_mem (by omega)]
    exact wf.before i (Nat.zero_le i) (by omega)
  · intro below
    dsimp only at below ⊢
    by_cases mem : start ≤ min start a.firstAvailableId ∧ min start a.firstAvailableId < stop
    · exact setRange_of_mem mem
    · rw [setRange_of_not_mem mem, min_eq_right (by omega)]
      exact wf.first_free (by omega)

/-! ### Runs -/

/-- A call that returned. -/
inductive Step (a : IdAlloc) : IdAlloc → Prop
  | alloc {id : Nat} {a' : IdAlloc} (h : a.allocOne = some (id, a')) : Step a a'
  | allocConsecutive {count : Nat} {found : Option (Nat × Nat)} {a' : IdAlloc}
      (h : a.allocConsecutive count = .ok (found, a')) : Step a a'
  | freeConsecutive {start stop : Nat} {a' : IdAlloc} (h : a.freeConsecutive start stop = .ok a') : Step a a'
  | free {id : Nat} {a' : IdAlloc} (h : a.freeOne id = .ok a') : Step a a'
  | allocSpecific {id : Nat} {found : Option Nat} {a' : IdAlloc} (h : a.allocSpecific id = .ok (found, a')) : Step a a'

/-- The calls that take a single id repair the first available id as taking a range does. -/
theorem takeOne_wf (wf : a.WF) {id : Nat} (lt : id < a.len) (clear : a.bits id = false) :
    let taken : IdAlloc := { a with bits := setRange true a.bits id (id + 1) }
    WF { taken with
      firstAvailableId := if id = a.firstAvailableId then taken.findFree (id + 1) else a.firstAvailableId } := by
  have first_le := wf.first_le_of_clear clear
  have free : a.Free id (id + 1) := by
    refine ⟨Nat.le_succ id, lt, fun i le below => ?_⟩
    rwa [le_antisymm (Nat.le_of_lt_succ below) le]
  obtain ⟨a', taken, wf', -⟩ := take_ok wf free (Nat.lt_succ_self id)
  have now : setRange true a.bits id (id + 1) a.firstAvailableId = true ↔ id = a.firstAvailableId := by
    by_cases same : id = a.firstAvailableId
    · exact ⟨fun _ => same, fun _ => setRange_of_mem (by omega)⟩
    · rw [setRange_of_not_mem (by omega), wf.first_free (by omega)]
      exact ⟨fun h => (nomatch h), fun h => absurd h same⟩
  have result := (if_neg (by omega)).symm.trans taken
  cases result
  simpa only [isAllocated, now] using wf'

theorem freeConsecutive_wf (wf : a.WF) (h : a.freeConsecutive start stop = .ok a') : a'.WF := by
  have body := h
  unfold freeConsecutive panicWith at body
  split at body
  · cases body
    exact wf
  split at body
  · cases body
  split at body
  · next lt within asserted =>
    have set : All true a.bits start stop := by
      intro i le below
      have := asserted (i - start) (by omega)
      rwa [Nat.add_sub_cancel' le] at this
    obtain ⟨b, eq, wf', -⟩ := freeConsecutive_ok wf (not_le.mp lt) (not_lt.mp within) set
    cases h.symm.trans eq
    exact wf'
  · cases body

/-- Nothing is allocated when no id is free, except that a single id is taken beyond the end. -/
theorem allocConsecutive_full (full : a.firstAvailableId = a.len) (pos : 0 < count) :
    a.allocConsecutive count =
      if count = 1 then panicWith "index out of bounds" else .ok (none, a) := by
  have stopped : a.scan count a.len a.firstAvailableId (a.firstAvailableId + 1) = (a.len, a.len + 1) := by
    rw [full]
    cases fuel : a.len with
    | zero => rfl
    | succ n => exact if_neg fun going => absurd going.2 (by omega)
  rw [allocConsecutive, if_neg pos.ne', stopped]
  dsimp only
  split
  · rw [if_neg (by omega)]
  · rw [if_pos (by omega), take, if_pos (.inl (Nat.lt_succ_self _))]
    rfl

theorem Step.wf (step : Step a a') (wf : a.WF) : a'.WF := by
  cases step with
  | alloc h =>
    unfold allocOne at h
    split at h
    · next lt =>
      cases h
      have taken := takeOne_wf wf lt (wf.first_free lt)
      dsimp only at taken
      rwa [if_pos rfl] at taken
    · cases h
  | @allocConsecutive count _ _ h =>
    rcases Nat.eq_zero_or_pos count with rfl | pos
    · cases h
      exact wf
    rcases lt_or_ge a.firstAvailableId a.len with lt | le
    · have avail : 0 < a.numFree := countClear_pos.mpr ⟨_, lt, wf.first_free lt⟩
      rcases allocConsecutive_ok wf pos avail with ⟨eq, -⟩ | ⟨start, a', eq, -, wf', -⟩
      · cases h.symm.trans eq
        exact wf
      · cases h.symm.trans eq
        exact wf'
    · rw [allocConsecutive_full (le_antisymm wf.first_le le) pos] at h
      split at h
      · cases h
      · cases h
        exact wf
  | freeConsecutive h => exact freeConsecutive_wf wf h
  | free h => exact freeConsecutive_wf wf h
  | allocSpecific h =>
    unfold IdAlloc.allocSpecific panicWith at h
    split at h
    · cases h
    split at h
    · cases h
      exact wf
    · next lt clear =>
      cases h
      exact takeOne_wf wf (not_le.mp lt) (Bool.eq_false_iff.mpr clear)

/-- In every run the first available id is the lowest free one or the capacity, and `alloc_consecutive`
takes the lowest range that is long enough, if there is one, exactly when it is not asked for one id
while none is free. -/
theorem allocConsecutive_first_fit_iff {made : IdAlloc}
    (init : ∃ capacity, made = withCapacity capacity ∨ ∃ slice, made = fromBytesWithCapacity slice capacity)
    (run : Relation.ReflTransGen Step made a) :
    (a.firstAvailableId ≤ a.len ∧ (∀ id < a.firstAvailableId, a.isAllocated id) ∧
        (a.firstAvailableId < a.len → ¬ a.isAllocated a.firstAvailableId)) ∧
      ∀ count > 0,
        ((∃ a', a.allocConsecutive count = .ok (none, a') ∧ ∀ s, ¬ a.Free s (s + count)) ∨
            ∃ start a', a.allocConsecutive count = .ok (some (start, start + count), a') ∧
              a.FirstFit count start) ↔
          count ≠ 1 ∨ ∃ id < a.len, ¬ a.isAllocated id := by
  have start : made.WF := by
    obtain ⟨capacity, rfl | ⟨slice, rfl⟩⟩ := init
    · exact .of_first (Nat.zero_le _) (fun i _ lt => absurd lt (Nat.not_lt_zero i)) fun _ => rfl
    · exact ⟨rfl⟩
  have wf : a.WF := by
    induction run with
    | refl => exact start
    | tail _ step ih => exact step.wf ih
  refine ⟨⟨wf.first_le, fun id => wf.before id (Nat.zero_le id),
    fun lt => Bool.eq_false_iff.mp (wf.first_free lt)⟩, ?_⟩
  intro count pos
  rcases Nat.eq_zero_or_pos a.numFree with none | avail
  · have used : ∀ i < a.len, ¬ a.bits i = false := fun i lt clear =>
      absurd (countClear_pos.mpr ⟨i, lt, clear⟩) (by unfold numFree at none; omega)
    have full : a.firstAvailableId = a.len := wf.first_le.eq_of_not_lt fun lt => used _ lt (wf.first_free lt)
    have fails : ∀ s, ¬ a.Free s (s + count) := fun s free =>
      used s (by have := free.within; omega) (free.clear s le_rfl (by omega))
    rw [allocConsecutive_full full pos]
    split
    · next one =>
      refine ⟨?_, ?_⟩
      · rintro (⟨a', eq, -⟩ | ⟨start, a', eq, -⟩) <;> cases eq
      · rintro (other | ⟨id, lt, clear⟩)
        · exact absurd one other
        · exact absurd (Bool.eq_false_iff.mpr clear) (used id lt)
    · next other => exact ⟨fun _ => .inl other, fun _ => .inl ⟨a, rfl, fails⟩⟩
  · obtain ⟨i, lt, clear⟩ := countClear_pos.mp avail
    refine ⟨fun _ => .inr ⟨i, lt, Bool.eq_false_iff.mp clear⟩, fun _ => ?_⟩
    rcases allocConsecutive_ok wf pos avail with none | ⟨start, a', eq, fit, -⟩
    · exact .inl ⟨a, none⟩
    · exact .inr ⟨start, a', eq, fit⟩

/-- Of six ids the first four are taken and the second is freed: two ids are then found behind the others. -/
theorem allocConsecutive_first_fit_gap : ∃ a, Relation.ReflTransGen Step (withCapacity 6) a ∧
    a.firstAvailableId = 1 ∧
    ∃ start a', a.allocConsecutive 2 = .ok (some (start, start + 2), a') ∧ a.FirstFit 2 start ∧ start = 4 := by
  have run := Relation.ReflTransGen.single (@Step.allocConsecutive (withCapacity 6) 3 _ _ rfl)
    |>.tail (.alloc rfl) |>.tail (@Step.free _ 1 _ rfl)
  obtain ⟨-, fits⟩ := allocConsecutive_first_fit_iff ⟨6, .inl rfl⟩ run
  rcases (fits 2 Nat.two_pos).mpr (.inl (by decide)) with ⟨_, eq, -⟩ | ⟨start, a', eq, fit⟩
  · cases eq
  · cases eq
    exact ⟨_, run, rfl, _, _, rfl, fit, rfl⟩

/-- A single id asked for when the only one is in use. -/
theorem allocConsecutive_beyond_end :
    ∃ a, Step (withCapacity 1) a ∧ a.allocConsecutive 1 = panicWith "index out of bounds" :=
  ⟨_, .alloc rfl, rfl⟩

end IdAlloc

end OmegaOsx.Ext2
