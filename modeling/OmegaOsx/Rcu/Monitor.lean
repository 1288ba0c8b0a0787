import OmegaOsx.Lib.Run
import Mathlib.Data.Fintype.Basic
import Mathlib.Data.List.Count

/-!
# Grace periods of the RCU monitor

`finish_grace_period` looks at `is_monitoring` without the lock, runs one section under it, and then calls
the callbacks of a grace period that has ended, one by one. All this is interleaved with other calls.

`System.run_grace`: a callback runs at most once, and not before the section has run on every CPU after the
callback was registered. While a grace period is not complete, the monitor is monitoring.
-/

namespace OmegaOsx.Rcu

open List

/-- The callbacks are numbered in the order of their registration. -/
abbrev Callback := Nat

structure GracePeriod (Cpu : Type) where
  callbacks : List Callback
  cpuMask : Finset Cpu
  isComplete : Bool

variable {Cpu : Type} [DecidableEq Cpu]

namespace GracePeriod

def new : GracePeriod Cpu := ⟨[], ∅, true⟩

def finishGracePeriod [Fintype Cpu] (gp : GracePeriod Cpu) (thisCpu : Cpu) : GracePeriod Cpu :=
  let cpuMask := insert thisCpu gp.cpuMask
  { gp with cpuMask, isComplete := gp.isComplete || cpuMask = Finset.univ }

def takeCallbacks (gp : GracePeriod Cpu) : List Callback × GracePeriod Cpu :=
  (gp.callbacks, { gp with callbacks := [] })

def restart (_ : GracePeriod Cpu) (callbacks : List Callback) : GracePeriod Cpu := ⟨callbacks, ∅, false⟩

end GracePeriod

structure RcuMonitor (Cpu : Type) where
  isMonitoring : Bool
  currentGp : GracePeriod Cpu
  nextCallbacks : List Callback

namespace RcuMonitor

def new : RcuMonitor Cpu := ⟨false, .new, []⟩

/-- The section of `finish_grace_period` under the lock, with the callbacks to call after it. -/
def finishGracePeriod [Fintype Cpu] (m : RcuMonitor Cpu) (cpu : Cpu) : List Callback × RcuMonitor Cpu :=
  if m.currentGp.isComplete then ([], m)
  else
    let gp := m.currentGp.finishGracePeriod cpu
    if !gp.isComplete then ([], { m with currentGp := gp })
    else
      let taken := gp.takeCallbacks
      if !m.nextCallbacks.isEmpty then
        (taken.1, { m with currentGp := taken.2.restart m.nextCallbacks, nextCallbacks := [] })
      else (taken.1, { m with currentGp := taken.2, isMonitoring := false })

def afterGracePeriod (m : RcuMonitor Cpu) (f : Callback) : RcuMonitor Cpu :=
  let nextCallbacks := m.nextCallbacks ++ [f]
  if !m.currentGp.isComplete then { m with nextCallbacks }
  else ⟨true, m.currentGp.restart nextCallbacks, []⟩

end RcuMonitor

/-- The monitor and the calls of `finish_grace_period` in progress. -/
structure System (Cpu : Type) where
  monitor : RcuMonitor Cpu
  /-- The calls that have seen `is_monitoring` and have yet to take the lock. -/
  waiting : Nat
  /-- For each call after its section, the callbacks that it has yet to call. -/
  loops : List (List Callback)
  registered : Nat

inductive Event (Cpu : Type)
  /-- `after_grace_period`. -/
  | register (f : Callback)
  /-- A call of `finish_grace_period` looks at `is_monitoring`. -/
  | load
  | finish (cpu : Cpu)
  | invoke (f : Callback)
  deriving DecidableEq

namespace System

def start : System Cpu := ⟨.new, 0, [], 0⟩

inductive Step [Fintype Cpu] (s : System Cpu) : Event Cpu → System Cpu → Prop
  -- a callback may do this as well: the lock is free while callbacks run
  | register : Step s (.register s.registered)
    { s with monitor := s.monitor.afterGracePeriod s.registered, registered := s.registered + 1 }
  | load : Step s .load { s with waiting := if s.monitor.isMonitoring then s.waiting + 1 else s.waiting }
  -- the CPU is read under the lock
  | finish {waiting : Nat} (cpu : Cpu) (called : s.waiting = waiting + 1) : Step s (.finish cpu)
    { s with
      monitor := (s.monitor.finishGracePeriod cpu).2
      waiting
      loops := (s.monitor.finishGracePeriod cpu).1 :: s.loops }
  | invoke (before : List (List Callback)) {f : Callback} {fs : List Callback} {after : List (List Callback)}
    (next : s.loops = before ++ (f :: fs) :: after) : Step s (.invoke f) { s with loops := before ++ fs :: after }

end System

/-- The section has run on the CPU after the callback was registered. -/
def Finished (events : List (Event Cpu)) (f : Callback) (cpu : Cpu) : Prop :=
  ∃ before after, events = before ++ after ∧ .register f ∈ before ∧ .finish cpu ∈ after

variable {past : List (Event Cpu)} {e : Event Cpu} {f : Callback} {cpu : Cpu}

omit [DecidableEq Cpu] in
theorem Finished.snoc (h : Finished past f cpu) : Finished (past ++ [e]) f cpu := by
  obtain ⟨before, after, rfl, registered, finished⟩ := h
  exact ⟨before, after ++ [e], append_assoc .., registered, mem_append_left _ finished⟩

/-- What holds after the events in `past`. -/
structure Inv (past : List (Event Cpu)) (s : System Cpu) : Prop where
  registered : ∀ f, past.count (.register f) = if f < s.registered then 1 else 0
  /-- Each callback registered is in one place: in the monitor, in a call, or called. -/
  once : ∀ f, s.monitor.currentGp.callbacks.count f + s.monitor.nextCallbacks.count f + s.loops.flatten.count f +
    past.count (.invoke f) = past.count (.register f)
  mask : ∀ f ∈ s.monitor.currentGp.callbacks, ∀ cpu ∈ s.monitor.currentGp.cpuMask, Finished past f cpu
  ended : ∀ f ∈ s.loops.flatten, ∀ cpu, Finished past f cpu
  complete : s.monitor.currentGp.isComplete = true → s.monitor.currentGp.callbacks = []
  monitoring : s.monitor.isMonitoring = !s.monitor.currentGp.isComplete

namespace Inv

variable {s t : System Cpu}

theorem start : Inv ([] : List (Event Cpu)) .start :=
  ⟨fun _ => rfl, fun _ => rfl, nofun, nofun, fun _ => rfl, rfl⟩

section

variable (inv : Inv past s)

include inv

theorem registered_snoc (other : ∀ f, e ≠ .register f) (f : Callback) :
    count (.register f) (past ++ [e]) = if f < s.registered then 1 else 0 := by
  have := inv.registered f
  have := other f
  grind

theorem mask_insert (cpu : Cpu) : ∀ f ∈ s.monitor.currentGp.callbacks,
    ∀ c ∈ insert cpu s.monitor.currentGp.cpuMask, Finished (past ++ [.finish cpu]) f c := by
  intro f mem c marked
  obtain rfl | marked := Finset.mem_insert.mp marked
  · -- a callback of the current period has been registered
    have := inv.once f
    have := count_pos_iff.mpr mem
    exact ⟨past, [.finish c], rfl, count_pos_iff.mp (by omega), mem_singleton_self _⟩
  · exact (inv.mask f mem c marked).snoc

theorem ended_snoc : ∀ f ∈ s.loops.flatten, ∀ cpu, Finished (past ++ [e]) f cpu := by
  intro f mem cpu
  exact (inv.ended f mem cpu).snoc

theorem afterGracePeriod : Inv (past ++ [.register s.registered])
    { s with monitor := s.monitor.afterGracePeriod s.registered, registered := s.registered + 1 } := by
  have registered (f : Callback) : count (Event.register f) (past ++ [.register s.registered]) =
      if f < s.registered + 1 then 1 else 0 := by
    have := inv.registered f
    grind
  unfold RcuMonitor.afterGracePeriod
  split
  · refine ⟨registered, ?_, ?_, inv.ended_snoc, inv.complete, inv.monitoring⟩
    · intro f
      have := inv.once f
      grind
    · intro f mem cpu marked
      exact (inv.mask f mem cpu marked).snoc
  · next complete =>
    -- the period is complete, so its callbacks have been taken and none is lost
    have taken := inv.complete (by simpa using complete)
    refine ⟨registered, ?_, fun _ _ _ => nofun, inv.ended_snoc, nofun, rfl⟩
    intro f
    have := inv.once f
    rw [taken] at this
    grind [GracePeriod.restart]

theorem finishGracePeriod [Fintype Cpu] (cpu : Cpu) (waiting : Nat) : Inv (past ++ [.finish cpu])
    { s with
      monitor := (s.monitor.finishGracePeriod cpu).2
      waiting
      loops := (s.monitor.finishGracePeriod cpu).1 :: s.loops } := by
  have registered := inv.registered_snoc (e := .finish cpu) nofun
  have mask := inv.mask_insert cpu
  have ended := inv.ended_snoc (e := .finish cpu)
  unfold RcuMonitor.finishGracePeriod
  split
  · refine ⟨registered, ?_, ?_, ended, inv.complete, inv.monitoring⟩
    · intro f
      have := inv.once f
      grind
    · intro f mem c marked
      exact mask f mem c (Finset.mem_insert_of_mem marked)
  next running =>
  have monitoring : s.monitor.isMonitoring = true := by
    rw [inv.monitoring]
    simpa using running
  dsimp only
  split
  · next more =>
    have more := (Bool.not_eq_true' _).mp more
    refine ⟨registered, ?_, mask, ended, ?_, ?_⟩
    · intro f
      have := inv.once f
      grind [GracePeriod.finishGracePeriod]
    · intro complete
      exact absurd complete (by simp [more])
    · rw [more]
      exact monitoring
  · next complete =>
    have complete := by simpa using complete
    -- the mask is full, so that the callbacks taken have waited for every CPU
    have full : insert cpu s.monitor.currentGp.cpuMask = Finset.univ := by
      simpa [GracePeriod.finishGracePeriod, running] using complete
    have all (f : Callback) (mem : f ∈ (s.monitor.currentGp.callbacks :: s.loops).flatten) (c : Cpu) :
        Finished (past ++ [.finish cpu]) f c := by
      obtain mem | mem := mem_append.mp (flatten_cons ▸ mem)
      · exact mask f mem c (full ▸ Finset.mem_univ c)
      · exact ended f mem c
    split
    · refine ⟨registered, ?_, fun _ _ _ => nofun, all, nofun, monitoring⟩
      intro f
      have := inv.once f
      grind [GracePeriod.finishGracePeriod, GracePeriod.takeCallbacks, GracePeriod.restart]
    · refine ⟨registered, ?_, nofun, all, fun _ => rfl, ?_⟩
      · intro f
        have := inv.once f
        grind [GracePeriod.finishGracePeriod, GracePeriod.takeCallbacks]
      · exact congrArg not complete.symm

end

theorem step [Fintype Cpu] (inv : Inv past s) (step : s.Step e t) : Inv (past ++ [e]) t := by
  cases step with
  | register => exact inv.afterGracePeriod
  | load =>
    refine ⟨inv.registered_snoc nofun, ?_, ?_, inv.ended_snoc, inv.complete, inv.monitoring⟩
    · intro f
      have := inv.once f
      grind
    · intro f mem cpu marked
      exact (inv.mask f mem cpu marked).snoc
  | finish cpu => exact inv.finishGracePeriod cpu _
  | @invoke before f fs after next =>
    have perm : s.loops.flatten ~ f :: (before ++ fs :: after).flatten := by
      rw [next]
      simp only [flatten_append, flatten_cons, cons_append]
      exact perm_middle
    refine ⟨inv.registered_snoc nofun, ?_, ?_, ?_, inv.complete, inv.monitoring⟩
    · intro g
      have := inv.once g
      rw [perm.count_eq] at this
      grind
    · intro g mem cpu marked
      exact (inv.mask g mem cpu marked).snoc
    · intro g mem cpu
      exact (inv.ended g (perm.mem_iff.mpr (mem_cons_of_mem _ mem)) cpu).snoc

end Inv

namespace System

variable {events : List (Event Cpu)} {s : System Cpu}

/-- After any run, no callback has run twice, each has waited for a section on every CPU, and the monitor
is monitoring if a grace period is not complete. -/
theorem run_grace [Fintype Cpu] (run : Labelled.Run Step start events s) :
    (∀ f, events.count (.invoke f) ≤ 1) ∧
      (∀ before f after, events = before ++ .invoke f :: after → ∀ cpu, Finished before f cpu) ∧
      (s.monitor.currentGp.isComplete = false → s.monitor.isMonitoring = true) := by
  have inv : Inv events s := run.history (fun _ _ _ _ inv => inv.step) Inv.start
  refine ⟨?_, ?_, ?_⟩
  · intro f
    have := inv.once f
    have := inv.registered f
    grind
  · rintro before f after rfl cpu
    obtain ⟨t, left, right⟩ := run.split
    have inv : Inv before t := left.history (fun _ _ _ _ inv => inv.step) Inv.start
    cases right with
    | cons first _ =>
      cases first with
      | invoke loops next => exact inv.ended f (by simp [next]) cpu
  · intro running
    rw [inv.monitoring, running]
    rfl

/-- The second callback is registered while the period of the first one runs. -/
def twoPeriods : List (Event Bool) :=
  [.register 0, .load, .load, .load, .load, .finish false, .register 1, .finish true, .invoke 0, .finish true,
    .finish false]

/-- On two CPUs, the second callback waits for a period of its own. -/
theorem run_grace_twoPeriods : ∃ s, Labelled.Run Step start (twoPeriods ++ [.invoke 1]) s ∧
    List.count (.invoke 1) (twoPeriods ++ [.invoke 1]) ≤ 1 ∧ ∀ cpu, Finished twoPeriods 1 cpu := by
  have loads : Labelled.Run Step (start : System Bool) [.register 0, .load, .load, .load, .load] _ :=
    .cons .register (.cons .load (.cons .load (.cons .load (.single .load))))
  have first := loads.append (.cons (.finish false rfl) (.cons .register (.cons (.finish true rfl)
    (.single (.invoke [] rfl)))))
  have run := first.append (.cons (.finish true rfl) (.cons (.finish false rfl) (.single (.invoke [] rfl))))
  obtain ⟨once, grace, -⟩ := run_grace run
  exact ⟨_, run, once 1, grace twoPeriods 1 [] rfl⟩

end System

end OmegaOsx.Rcu
