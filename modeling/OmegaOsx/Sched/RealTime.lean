import Mathlib.Algebra.BigOperators.Fin
import Mathlib.Algebra.Order.BigOperators.Group.Finset
import OmegaOsx.MlsDisk.Basic
import OmegaOsx.Lib.Run

/-!
# The real-time run queue

Threads are put into the inactive one of two priority arrays and taken from the active one; the arrays swap when the
active one is empty. A thread that arrives therefore waits for all threads of the active array, whatever its priority,
and a FIFO thread gives way to any of them.
-/

namespace OmegaOsx.Sched

open Finset List

inductive Fault
  | unwrapNone
  deriving DecidableEq, Repr

abbrev Res (α : Type) := Except Fault α

/-- An index of the arrays; `RealTimePriority` has the values 1 to 99. -/
abbrev Prio := Fin 100

inductive UpdateFlags
  | tick
  | yield
  | wait
  | exit
  deriving DecidableEq, Repr

structure RealTimeAttr where
  prio : Prio
  /-- 0 for a FIFO thread. -/
  timeSlice : Nat

structure PrioArray (T : Type) where
  map : Prio → Bool
  queue : Prio → List T

namespace PrioArray

variable {T : Type}

def empty : PrioArray T := ⟨fun _ => false, fun _ => []⟩

def enqueue (a : PrioArray T) (thread : T) (prio : Prio) : PrioArray T where
  map := if (a.queue prio).isEmpty then Function.update a.map prio true else a.map
  queue := Function.update a.queue prio (a.queue prio ++ [thread])

/-- `self.map.iter_ones().next()`. -/
def peekPrio (a : PrioArray T) : Option Prio := Fin.find? a.map

def pop (a : PrioArray T) : Res (Option T × PrioArray T) :=
  match a.peekPrio with
  | none => pure (none, a)
  | some prio =>
    match a.queue prio with
    | [] => throw .unwrapNone
    | thread :: rest =>
      pure (some thread, {
        map := if rest.isEmpty then Function.update a.map prio false else a.map
        queue := Function.update a.queue prio rest })

end PrioArray

/-- `array[index]` and `array[!index]`. -/
structure RealTimeClassRq (T : Type) where
  active : PrioArray T
  inactive : PrioArray T
  nrRunning : Nat

namespace RealTimeClassRq

variable {T : Type}

def new : RealTimeClassRq T := ⟨.empty, .empty, 0⟩

def enqueue (rq : RealTimeClassRq T) (entity : T) (prio : Prio) : RealTimeClassRq T :=
  { rq with inactive := rq.inactive.enqueue entity prio, nrRunning := rq.nrRunning + 1 }

/-- The arrays are swapped if the active one is empty. -/
def pickNext (rq : RealTimeClassRq T) : Res (Option T × RealTimeClassRq T) :=
  if rq.nrRunning = 0 then pure (none, rq)
  else do
    let (thread, active) ← rq.active.pop
    match thread with
    | some thread => pure (some thread, ⟨active, rq.inactive, rq.nrRunning - 1⟩)
    | none => do
      let (thread, swapped) ← rq.inactive.pop
      pure (thread, ⟨swapped, active, if thread.isSome then rq.nrRunning - 1 else rq.nrRunning⟩)

def updateCurrent (rq : RealTimeClassRq T) (periodDelta : Nat) (attr : RealTimeAttr) : UpdateFlags → Bool
  | .tick | .yield =>
    if attr.timeSlice = 0 then rq.active.peekPrio.isSome || rq.inactive.peekPrio.any (· < attr.prio)
    else attr.timeSlice ≤ periodDelta && rq.nrRunning != 0
  | .wait | .exit => rq.nrRunning != 0

end RealTimeClassRq

/-! ## Priority arrays -/

variable {T : Type} {a : PrioArray T} {p : Prio}

/-- The bits say which queues have threads. -/
def Mapped (a : PrioArray T) : Prop := ∀ p, a.map p = !(a.queue p).isEmpty

namespace Mapped

variable (h : Mapped a)
include h

theorem update {map : Prio → Bool} {ts : List T} (bit : map p = !ts.isEmpty)
    (others : ∀ q, q ≠ p → map q = a.map q) : Mapped ⟨map, Function.update a.queue p ts⟩ := by
  intro q
  by_cases eq : q = p
  · subst eq
    simpa using bit
  · simpa [eq, h q] using others q eq

theorem enqueue (t : T) (p : Prio) : Mapped (a.enqueue t p) := by
  refine h.update ?_ fun q ne => ?_
  · have bit := h p
    split_ifs with none <;> simp_all
  · split_ifs <;> simp [ne]

/-- The first bit is the least priority value with a thread. -/
theorem peek : (a.peekPrio = none ∧ ∀ p, a.queue p = []) ∨
    ∃ p x rest, a.peekPrio = some p ∧ a.queue p = x :: rest ∧ ∀ q, a.queue q ≠ [] → p ≤ q := by
  have bit : ∀ q, a.map q = false → a.queue q = [] := fun q clear => by simpa [clear] using h q
  cases first : a.peekPrio with
  | none => exact .inl ⟨rfl, fun q => bit q (Fin.find?_eq_none_iff.mp first q)⟩
  | some p =>
    obtain ⟨set, clear⟩ := Fin.find?_eq_some_iff.mp first
    have filled : a.queue p ≠ [] := by simpa [set] using (h p).symm
    obtain ⟨x, rest, queue⟩ := exists_cons_of_ne_nil filled
    exact .inr ⟨p, x, rest, rfl, queue, fun q filled => not_lt.mp fun lt => filled (bit q (clear q lt))⟩

theorem pop {x : T} {rest : List T} (peek : a.peekPrio = some p) (queue : a.queue p = x :: rest) :
    ∃ a', a.pop = .ok (some x, a') ∧ a'.queue = Function.update a.queue p rest ∧ Mapped a' := by
  unfold PrioArray.pop
  rw [peek]
  dsimp only
  rw [queue]
  refine ⟨_, rfl, rfl, h.update ?_ fun q ne => ?_⟩
  · have bit := h p
    split_ifs with last <;> simp_all
  · split_ifs <;> simp [ne]

end Mapped

/-! ## Runs -/

/-- A thread in the run queue, with the priority it had when it was enqueued and the number of
threads enqueued before. -/
structure Entity (T : Type) where
  thread : T
  prio : Prio
  arrival : Nat
  deriving DecidableEq

/-- The run queue and the number of threads enqueued so far. -/
structure System (T : Type) where
  rq : RealTimeClassRq (Entity T)
  arrivals : Nat

namespace System

/-- The queued threads of one priority. -/
def level (s : System T) (p : Prio) : List (Entity T) := s.rq.active.queue p ++ s.rq.inactive.queue p

def Queued (s : System T) (x : Entity T) : Prop := ∃ p, x ∈ s.level p

/-- What `pick_next` should return: the thread with the least priority value, and among those the one enqueued first. -/
def PicksFirst (s : System T) : Option (Entity T) → Prop
  | none => ∀ x, ¬ s.Queued x
  | some x => s.Queued x ∧ ∀ y, s.Queued y → x.prio < y.prio ∨ x.prio = y.prio ∧ x.arrival ≤ y.arrival

inductive Op (T : Type)
  | enqueue (thread : T) (prio : Prio)
  | pickNext (picked : Option (Entity T))

inductive Step : System T → Op T → System T → Prop
  | enqueue (s : System T) (thread : T) (prio : Prio) :
      Step s (.enqueue thread prio) ⟨s.rq.enqueue ⟨thread, prio, s.arrivals⟩ prio, s.arrivals + 1⟩
  | pickNext {s : System T} {rq : RealTimeClassRq (Entity T)} {picked : Option (Entity T)}
      (eq : s.rq.pickNext = .ok (picked, rq)) : Step s (.pickNext picked) { s with rq }

structure Inv (s : System T) : Prop where
  active : Mapped s.rq.active
  inactive : Mapped s.rq.inactive
  /-- The threads of the active array have arrived before those of the inactive one. -/
  ordered : ∀ p, (s.level p).Pairwise fun x y => x.arrival < y.arrival
  entries : ∀ p, ∀ x ∈ s.level p, x.prio = p ∧ x.arrival < s.arrivals
  count : s.rq.nrRunning = ∑ p, (s.level p).length

variable {s s' : System T} {x : Entity T}

theorem new_inv : Inv (⟨.new, 0⟩ : System T) :=
  ⟨fun _ => rfl, fun _ => rfl, fun _ => .nil, nofun, by simp [level, RealTimeClassRq.new, PrioArray.empty]⟩

section

variable (inv : s.Inv)
include inv

theorem Inv.count_level (p : Prio) : s.rq.nrRunning = (s.level p).length + ∑ q ∈ univ.erase p, (s.level q).length :=
  inv.count.trans (add_sum_erase _ _ (mem_univ p)).symm

/-- The threads of one priority change. -/
theorem Inv.update {ts : List (Entity T)} (active : Mapped s'.rq.active) (inactive : Mapped s'.rq.inactive)
    (level : s'.level = Function.update s.level p ts) (ordered : ts.Pairwise fun x y => x.arrival < y.arrival)
    (entries : ∀ x ∈ ts, x.prio = p ∧ x.arrival < s'.arrivals) (le : s.arrivals ≤ s'.arrivals)
    (count : s'.rq.nrRunning + (s.level p).length = s.rq.nrRunning + ts.length) : s'.Inv := by
  refine ⟨active, inactive, fun q => ?_, fun q => ?_, ?_⟩
  · by_cases eq : q = p
    · subst eq
      simpa [level] using ordered
    · simpa [level, eq] using inv.ordered q
  · by_cases eq : q = p
    · subst eq
      simpa [level] using entries
    · rw [level, Function.update_of_ne eq]
      exact fun x mem => (inv.entries q x mem).imp_right fun lt => lt.trans_le le
  · have lengths : ∀ q, (s'.level q).length = Function.update (fun q => (s.level q).length) p ts.length q :=
      fun q => level ▸ Function.apply_update (fun _ => length) s.level p ts q
    simp only [lengths, sum_update_of_mem (mem_univ p), sdiff_singleton_eq_erase]
    have before := inv.count_level p
    omega

theorem Inv.enqueue (thread : T) (prio : Prio) :
    Inv ⟨s.rq.enqueue ⟨thread, prio, s.arrivals⟩ prio, s.arrivals + 1⟩ := by
  have level : level ⟨s.rq.enqueue ⟨thread, prio, s.arrivals⟩ prio, s.arrivals + 1⟩ =
      Function.update s.level prio (s.level prio ++ [⟨thread, prio, s.arrivals⟩]) := by
    funext q
    by_cases eq : q = prio
    · subst eq
      simp [level, RealTimeClassRq.enqueue, PrioArray.enqueue]
    · simp [level, RealTimeClassRq.enqueue, PrioArray.enqueue, eq]
  refine inv.update inv.active (inv.inactive.enqueue _ _) level ?_ ?_ (Nat.le_succ _) ?_
  · refine pairwise_append.mpr ⟨inv.ordered prio, pairwise_singleton _ _, ?_⟩
    simpa using fun x mem => (inv.entries prio x mem).2
  · intro x mem
    obtain mem | mem := mem_append.mp mem
    · exact (inv.entries prio x mem).imp_right Nat.lt_succ_of_lt
    · cases List.mem_singleton.mp mem
      exact ⟨rfl, Nat.lt_succ_self _⟩
  · simp only [RealTimeClassRq.enqueue, length_append, length_singleton]
    omega

variable {rest : List (Entity T)}

/-- The first thread of a level is taken. -/
theorem Inv.take {rq : RealTimeClassRq (Entity T)} (front : s.level p = x :: rest)
    (active : Mapped rq.active) (inactive : Mapped rq.inactive) (count : rq.nrRunning = s.rq.nrRunning - 1)
    (level : ∀ q, rq.active.queue q ++ rq.inactive.queue q = Function.update s.level p rest q) :
    Inv { s with rq } := by
  refine inv.update active inactive (funext level) ?_ (fun y mem => inv.entries p y ?_) le_rfl ?_
  · exact (pairwise_cons.mp (front ▸ inv.ordered p)).2
  · exact front ▸ mem_cons_of_mem _ mem
  · have before := inv.count_level p
    simp only [front, length_cons] at before ⊢
    omega

/-- `pick_next` takes the first thread of a level: the least level of the active array, or of the other one if that is
empty. -/
theorem Inv.pickNext : (s.rq.pickNext = .ok (none, s.rq) ∧ (∀ p, s.level p = []) ∧
    s.rq.active.peekPrio = none) ∨
    ∃ p x rest rq, s.rq.pickNext = .ok (some x, rq) ∧ s.level p = x :: rest ∧ Inv { s with rq } ∧
      (s.rq.active.peekPrio = some p ∧ (∀ q, s.rq.active.queue q ≠ [] → p ≤ q) ∨
        s.rq.active.peekPrio = none ∧ ∀ q, s.level q ≠ [] → p ≤ q) := by
  unfold RealTimeClassRq.pickNext
  obtain ⟨peek, clear⟩ | ⟨p, x, rest, peek, queue, least⟩ := inv.active.peek
  · have level : ∀ q, s.level q = s.rq.inactive.queue q := fun q => by rw [level, clear, nil_append]
    obtain ⟨-, clear'⟩ | ⟨p, x, rest, peek', queue, least⟩ := inv.inactive.peek
    · have empty : s.rq.nrRunning = 0 := by simp [inv.count, level, clear']
      rw [if_pos empty]
      exact .inl ⟨rfl, fun q => (level q).trans (clear' q), peek⟩
    have filled : s.rq.nrRunning ≠ 0 := by simp [inv.count_level p, level, queue]
    have keep : s.rq.active.pop = .ok (none, s.rq.active) := by
      unfold PrioArray.pop
      rw [peek]
      rfl
    obtain ⟨a, pop, queues, mapped⟩ := inv.inactive.pop peek' queue
    have front := (level p).trans queue
    rw [if_neg filled, keep, pop]
    refine .inr ⟨p, x, rest, ⟨a, s.rq.active, _⟩, rfl, front, inv.take front mapped inv.active rfl fun q => ?_,
      .inr ⟨peek, fun q => level q ▸ least q⟩⟩
    rw [queues, clear, append_nil, funext level]
  · have front : s.level p = x :: (rest ++ s.rq.inactive.queue p) := by rw [level, queue, cons_append]
    have filled : s.rq.nrRunning ≠ 0 := by simp [inv.count_level p, front]
    obtain ⟨a, pop, queues, mapped⟩ := inv.active.pop peek queue
    rw [if_neg filled, pop]
    refine .inr ⟨p, x, _, _, rfl, front, inv.take front mapped inv.inactive rfl fun q => ?_, .inl ⟨peek, least⟩⟩
    rw [queues]
    by_cases eq : q = p
    · subst eq
      simp
    · simp [eq, level]

theorem Inv.step {op : Op T} (step : Step s op s') : s'.Inv := by
  cases step with
  | enqueue thread prio => exact inv.enqueue thread prio
  | pickNext eq =>
    obtain ⟨returns, -⟩ | ⟨p, x, rest, rq, returns, -, inv, -⟩ := inv.pickNext
    · cases eq.symm.trans returns
      exact inv
    · cases eq.symm.trans returns
      exact inv

/-- The first thread of a level comes before all others if there is no thread at a lower level. -/
theorem Inv.picksFirst_iff (front : s.level p = x :: rest) : s.PicksFirst (some x) ↔
    ∀ q, s.level q ≠ [] → p ≤ q := by
  have mem : x ∈ s.level p := front ▸ mem_cons_self
  have prio := (inv.entries p x mem).1
  refine ⟨fun ⟨_, first⟩ q filled => ?_, fun least => ⟨⟨p, mem⟩, fun y ⟨q, mem⟩ => ?_⟩⟩
  · obtain ⟨y, mem⟩ := exists_mem_of_ne_nil _ filled
    have le : x.prio ≤ y.prio := (first y ⟨q, mem⟩).elim le_of_lt fun ⟨eq, _⟩ => le_of_eq eq
    rwa [prio, (inv.entries q y mem).1] at le
  rw [prio, (inv.entries q y mem).1]
  refine (lt_or_eq_of_le (least q (ne_nil_of_mem mem))).imp_right fun eq => ⟨eq, ?_⟩
  subst eq
  obtain rfl | mem := mem_cons.mp (front ▸ mem)
  · exact le_rfl
  · exact ((pairwise_cons.mp (front ▸ inv.ordered p)).1 y mem).le

end

/-- In every state that can be reached, `pick_next` returns the thread with the least priority
value, and among those the first, exactly if the inactive array has no smaller value than the active
one; and a tick on which a FIFO thread is asked to give way has a reason exactly if the active array
is empty or some thread has a smaller value. -/
theorem run_strict_iff {ops : List (Op T)} (run : Labelled.Run Step ⟨.new, 0⟩ ops s) :
    (∃ picked rq, s.rq.pickNext = .ok (picked, rq) ∧ (s.PicksFirst picked ↔
      ∀ p, s.rq.active.peekPrio = some p → ∀ q, s.rq.inactive.queue q ≠ [] → p ≤ q)) ∧
    ∀ delta prio, (s.rq.updateCurrent delta ⟨prio, 0⟩ .tick = true → ∃ y, s.Queued y ∧ y.prio < prio) ↔
      (s.rq.active.peekPrio = none ∨ ∃ y, s.Queued y ∧ y.prio < prio) := by
  have inv : s.Inv := run.invariant (fun _ _ _ inv step => inv.step step) new_inv
  refine ⟨?_, fun delta prio => ⟨fun tick => ?_, ?_⟩⟩
  · obtain ⟨returns, none, peek⟩ | ⟨p, x, rest, rq, returns, front, -, place⟩ := inv.pickNext
    · refine ⟨_, _, returns, iff_of_true (fun x ⟨q, mem⟩ => ?_) (by simp [peek])⟩
      rw [none] at mem
      cases mem
    · refine ⟨_, _, returns, (inv.picksFirst_iff front).trans ?_⟩
      obtain ⟨peek, least⟩ | ⟨peek, least⟩ := place
      · simp only [peek, Option.some.injEq, forall_eq', level, ne_eq, append_eq_nil_iff, not_and_or]
        exact ⟨fun all q filled => all q (.inr filled), fun others q filled => filled.elim (least q) (others q)⟩
      · exact iff_of_true least (by simp [peek])
  · cases peek : s.rq.active.peekPrio with
    | none => exact .inl rfl
    | some p => exact .inr (tick (by simp [RealTimeClassRq.updateCurrent, peek]))
  · rintro (peek | reason) tick
    · simp only [RealTimeClassRq.updateCurrent, peek, Option.isSome_none, Bool.false_or, if_true,
        Option.any_eq_true, decide_eq_true_eq] at tick
      obtain ⟨q, peek, lt⟩ := tick
      obtain ⟨none, -⟩ | ⟨p, y, rest, first, queue, -⟩ := inv.inactive.peek
      · cases none.symm.trans peek
      · cases first.symm.trans peek
        have mem : y ∈ s.level q := mem_append_right _ (queue ▸ mem_cons_self)
        exact ⟨y, ⟨q, mem⟩, (inv.entries q y mem).1 ▸ lt⟩
    · exact reason

/-- Threads 0 and 1 with the priority values 50 and 60 arrive. -/
def twoThreads : System Nat := ⟨(RealTimeClassRq.new.enqueue ⟨0, 50, 0⟩ 50).enqueue ⟨1, 60, 1⟩ 60, 2⟩

theorem twoThreads_run : Labelled.Run Step ⟨.new, 0⟩ [.enqueue 0 50, .enqueue 1 60] twoThreads :=
  .cons (.enqueue _ _ _) (.cons (.enqueue _ _ _) (.nil _))

/-- The first one is picked. -/
theorem run_strict_iff_twoThreads : ∃ picked rq, twoThreads.rq.pickNext = .ok (picked, rq) ∧
    twoThreads.PicksFirst picked := by
  obtain ⟨⟨picked, rq, returns, iff⟩, -⟩ := run_strict_iff twoThreads_run
  refine ⟨picked, rq, returns, iff.mpr ?_⟩
  have peek : twoThreads.rq.active.peekPrio = none := by decide +kernel
  simp [peek]

/-- While thread 0 runs, a tick makes it give way to thread 1, which has a larger value; and when
thread 2 with the value 10 arrives, thread 1 is still picked before it. -/
theorem larger_value_first :
    (twoThreads.rq.pickNext.toOption.map fun (picked, rq) => (picked, rq.updateCurrent 0 ⟨50, 0⟩ .tick)) =
      some (some ⟨0, 50, 0⟩, true) ∧
    ((twoThreads.rq.pickNext >>= fun (_, rq) => (rq.enqueue ⟨2, 10, 2⟩ 10).pickNext).toOption.map Prod.fst) =
      some (some ⟨1, 60, 1⟩) := by
  decide +kernel

/-- The number of threads in the active array. -/
def waiting (s : System T) : Nat := ∑ p, (s.rq.active.queue p).length

def picks (ops : List (Op T)) : Nat := ops.countP fun | .pickNext _ => true | .enqueue .. => false

/-- A thread of the active array stays there until it is picked, and each pick before takes out another one. -/
theorem Inv.active_step {op : Op T} (inv : s.Inv) (mem : x ∈ s.rq.active.queue p) (step : Step s op s')
    (other : op ≠ .pickNext (some x)) : x ∈ s'.rq.active.queue p ∧ s'.waiting + picks [op] ≤ s.waiting := by
  cases step with
  | enqueue => exact ⟨mem, by simp [waiting, picks, RealTimeClassRq.enqueue]⟩
  | pickNext eq =>
    obtain ⟨-, clear⟩ | ⟨q, y, rest, peek, queue, -⟩ := inv.active.peek
    · simp [clear] at mem
    obtain ⟨a, pop, queues, -⟩ := inv.active.pop peek queue
    have filled : s.rq.nrRunning ≠ 0 := by simp [inv.count_level q, level, queue]
    rw [RealTimeClassRq.pickNext, if_neg filled, pop] at eq
    cases eq
    simp only [waiting, queues, Function.update_apply]
    constructor
    · split_ifs with same
      · subst same
        exact (mem_cons.mp (queue ▸ mem)).resolve_left (by rintro rfl; exact other rfl)
      · exact mem
    · refine Nat.succ_le_of_lt (sum_lt_sum (fun r _ => ?_) ⟨q, mem_univ q, ?_⟩)
      · split_ifs with same
        · simp [same, queue]
        · exact le_rfl
      · simp [queue]

theorem Inv.active_run {ops : List (Op T)} (run : Labelled.Run Step s ops s') (inv : s.Inv)
    (mem : x ∈ s.rq.active.queue p) (other : .pickNext (some x) ∉ ops) : picks ops < s.waiting := by
  induction run with
  | nil => exact sum_pos' (fun _ _ => Nat.zero_le _) ⟨p, mem_univ p, length_pos_of_mem mem⟩
  | cons first _ ih =>
    obtain ⟨stays, count⟩ := inv.active_step mem first fun eq => other (eq ▸ mem_cons_self)
    have := ih (inv.step first) stays fun mem => other (mem_cons_of_mem _ mem)
    simp only [picks, countP_cons] at this count ⊢
    omega

/-- In every state that can be reached `pick_next` returns, and the next threads picked, as many as
the active array has, are those of the active array, whatever is enqueued meanwhile. -/
theorem run_no_starvation (s : Labelled.Reachable Step (⟨.new, 0⟩ : System T)) :
    (∃ picked rq, s.1.rq.pickNext = .ok (picked, rq)) ∧ ∀ p, ∀ x ∈ s.1.rq.active.queue p, ∀ ops s',
      Labelled.Run Step s.1 ops s' → s.1.waiting ≤ picks ops → .pickNext (some x) ∈ ops := by
  obtain ⟨s, _, run⟩ := s
  have inv : s.Inv := run.invariant (fun _ _ _ inv step => inv.step step) new_inv
  refine ⟨?_, fun p x mem ops s' run enough => by_contra fun other => (inv.active_run run mem other).not_ge enough⟩
  obtain ⟨returns, -⟩ | ⟨_, _, _, _, returns, -⟩ := inv.pickNext
  · exact ⟨_, _, returns⟩
  · exact ⟨_, _, returns⟩

open MlsDisk in
/-- Two threads are enqueued and one is picked; the other one is picked next, although a third one has arrived. -/
theorem run_no_starvation_arrival : ∃ (s s' : System Nat) (x : Option (Entity Nat)), Labelled.Run Step ⟨.new, 0⟩
      [.enqueue 7 1, .enqueue 8 2, .pickNext (some ⟨7, 1, 0⟩)] s ∧ ⟨8, 2, 1⟩ ∈ s.rq.active.queue 2 ∧
      Labelled.Run Step s [.enqueue 9 1, .pickNext x] s' ∧ x = some ⟨8, 2, 1⟩ := by
  obtain ⟨⟨⟨_, rq⟩, x, rq'⟩, h, seen⟩ := exists_ok_of_map
    (x := do
      let a ← ((RealTimeClassRq.new.enqueue ⟨7, 1, 0⟩ 1).enqueue (⟨8, 2, 1⟩ : Entity Nat) 2).pickNext
      pure (a, ← (a.2.enqueue ⟨9, 1, 2⟩ 1).pickNext))
    (f := fun a => (a.1.1, a.1.2.active.queue 2, waiting ⟨a.1.2, 2⟩))
    (b := (some ⟨7, 1, 0⟩, [⟨8, 2, 1⟩], 1))
    (by decide +kernel)
  obtain ⟨_, first, h⟩ := bind_ok.mp h
  obtain ⟨_, second, h⟩ := bind_ok.mp h
  cases h
  simp only [Prod.mk.injEq] at seen
  obtain ⟨rfl, active, waits⟩ := seen
  have run : Labelled.Run Step ⟨.new, 0⟩ [.enqueue 7 1, .enqueue 8 2, .pickNext (some ⟨7, 1, 0⟩)] ⟨rq, 2⟩ :=
    .cons (.enqueue _ 7 1) (.cons (.enqueue _ 8 2) (.single (.pickNext first)))
  have mem : ⟨8, 2, 1⟩ ∈ rq.active.queue 2 := active ▸ List.mem_singleton_self _
  have next : Labelled.Run Step ⟨rq, 2⟩ [.enqueue 9 1, .pickNext x] ⟨rq', 3⟩ :=
    .cons (.enqueue _ 9 1) (.single (.pickNext second))
  have picked := (run_no_starvation ⟨_, _, run⟩).2 2 _ mem _ _ next (le_of_eq waits)
  refine ⟨_, _, x, run, mem, next, ?_⟩
  simpa [eq_comm] using picked

end System

end OmegaOsx.Sched
