import OmegaOsx.Sched.RealTime

/-!
# The fair run queue

A thread has a virtual runtime and a weight. A new weight is stored beside the old one and marked as
pending; the run queue fetches it when it next handles the thread, while other threads may change it
at any moment.
-/

namespace OmegaOsx.Sched.Fair

open List Function

def WEIGHT_0 : Nat := 1024

/-- The weight of the nice value `index - 20`. -/
def niceToWeight (index : Fin 40) : Nat :=
  if 20 ≤ index.val then WEIGHT_0 * 4 ^ (index.val - 20) / 5 ^ (index.val - 20)
  else WEIGHT_0 * 5 ^ (20 - index.val) / 4 ^ (20 - index.val)

structure FairAttr where
  /-- Without the flag `HAS_PENDING`. -/
  weight : Nat
  hasPending : Bool
  /-- All values that `pending_weight` has had. -/
  pending : List Nat
  vruntime : Nat

namespace FairAttr

variable (a : FairAttr)

/-- The first instruction of `update`. -/
def store (nice : Fin 40) : FairAttr := { a with pending := niceToWeight nice :: a.pending }

/-- The second one. -/
def flag : FairAttr := { a with hasPending := true }

/-- What may have been read from `pending_weight` when the exchange takes place; another value may
have been stored since. -/
def Loads (loaded : Nat) : Prop := a.hasPending → loaded ∈ a.pending

/-- The old and the new weight. -/
def fetchWeight (loaded : Nat) : (Nat × Nat) × FairAttr :=
  if a.hasPending then ((a.weight, loaded), { a with weight := loaded, hasPending := false })
  else ((a.weight, a.weight), a)

theorem fetchWeight_spec (loaded : Nat) : (a.fetchWeight loaded).1.1 = a.weight ∧
    (a.fetchWeight loaded).2.weight = (a.fetchWeight loaded).1.2 ∧
    (a.fetchWeight loaded).2.vruntime = a.vruntime := by
  unfold fetchWeight
  split <;> exact ⟨rfl, rfl, rfl⟩

def updateVruntime (delta weight : Nat) : FairAttr := { a with vruntime := a.vruntime + delta * WEIGHT_0 / weight }

end FairAttr

/-- `FairQueueItem`, with the weight that was added for it. -/
structure Item (T : Type) where
  task : T
  key : Nat
  added : Nat

/-- The heap is a list in any order. -/
structure FairClassRq (T : Type) where
  entities : List (Item T)
  minVruntime : Nat
  totalWeight : Nat

/-- The clocks that the time slices depend on. -/
structure Clocks where
  baseSlice : Nat
  minPeriod : Nat
  numCpus : Nat

structure CurrentRuntime where
  delta : Nat
  periodDelta : Nat

namespace FairClassRq

variable {T : Type} (c : Clocks) (rq : FairClassRq T)

def new : FairClassRq T := ⟨[], 0, 0⟩

def period : Nat := max (c.baseSlice * (rq.entities.length + 1)) c.minPeriod * Nat.log2 (1 + c.numCpus)

def vtimeSlice : Nat := rq.period c / (rq.entities.length + 1)

def timeSlice (curWeight : Nat) : Nat := rq.period c * curWeight / (rq.totalWeight + curWeight)

def enqueue (task : T) (attr : FairAttr) (loaded : Nat) (spawn : Bool) : FairClassRq T × FairAttr :=
  let vruntime := if spawn then rq.minVruntime + rq.vtimeSlice c else rq.minVruntime
  let fetched := attr.fetchWeight loaded
  let weight := fetched.1.2
  let key := max fetched.2.vruntime vruntime
  ({ rq with entities := ⟨task, key, weight⟩ :: rq.entities, totalWeight := rq.totalWeight + weight },
    { fetched.2 with vruntime := key })

/-- `pick_next`, after an item with the least key was taken from the heap and `rest` was left. -/
def pickNext (rest : List (Item T)) (attr : FairAttr) (loaded : Nat) : FairClassRq T × FairAttr :=
  let fetched := attr.fetchWeight loaded
  ({ rq with entities := rest, totalWeight := rq.totalWeight - fetched.1.1 }, fetched.2)

/-- The key of `self.entities.peek()`. -/
def leftmost : Option Nat := (rq.entities.map Item.key).min?

def updateCurrent (rt : CurrentRuntime) (attr : FairAttr) (loaded : Nat) (flags : UpdateFlags) :
    (FairClassRq T × FairAttr) × Bool :=
  if flags = .exit then ((rq, attr), !rq.entities.isEmpty)
  else
    let fetched := attr.fetchWeight loaded
    let weight := fetched.1.2
    let attr := fetched.2.updateVruntime rt.delta weight
    let rq := { rq with minVruntime := rq.leftmost.elim attr.vruntime (min attr.vruntime) }
    ((rq, attr), rq.leftmost.isSome && (flags == .wait || decide (rq.timeSlice c weight < rt.periodDelta) ||
      decide (rq.minVruntime + rq.vtimeSlice c < attr.vruntime)))

theorem le_minVruntime_iff {n vruntime : Nat} : n ≤ rq.leftmost.elim vruntime (min vruntime) ↔
    n ≤ vruntime ∧ ∀ item ∈ rq.entities, n ≤ item.key := by
  cases peek : rq.leftmost with
  | none =>
    have empty : rq.entities = [] := by simpa [leftmost] using peek
    simp [empty]
  | some key =>
    obtain ⟨mem, least⟩ := min?_eq_some_iff.mp peek
    simp only [mem_map, forall_exists_index, and_imp, forall_apply_eq_imp_iff₂] at mem least
    obtain ⟨item, mem, rfl⟩ := mem
    simp only [Option.elim_some, Nat.le_min]
    exact and_congr_right fun _ => ⟨fun le other mem' => le.trans (least other mem'), fun all => all item mem⟩

end FairClassRq

/-! ## Runs -/

/-- A run queue, its current thread, and the attributes of all threads. -/
structure System (T : Type) where
  rq : FairClassRq T
  current : Option T
  attr : T → FairAttr

namespace System

variable {T : Type}

/-- The thread is not in this run queue and does not run. -/
def Away (s : System T) (task : T) : Prop := task ∉ s.rq.entities.map Item.task ∧ s.current ≠ some task

structure Inv (s : System T) : Prop where
  total : s.rq.totalWeight = (s.rq.entities.map Item.added).sum
  once : (s.rq.entities.map Item.task).Nodup
  /-- While a thread is queued, its weight and its virtual runtime stay as they were. -/
  kept : ∀ item ∈ s.rq.entities, (s.attr item.task).weight = item.added ∧ (s.attr item.task).vruntime = item.key
  low : ∀ item ∈ s.rq.entities, s.rq.minVruntime ≤ item.key
  current : ∀ task, s.current = some task → task ∉ s.rq.entities.map Item.task ∧
    s.rq.minVruntime ≤ (s.attr task).vruntime

theorem ne_of_fresh {entities : List (Item T)} {item : Item T} {task : T} (fresh : task ∉ entities.map Item.task)
    (mem : item ∈ entities) : item.task ≠ task := by
  rintro rfl
  exact fresh (mem_map_of_mem mem)

theorem Away.ne {s : System T} {task other : T} (away : s.Away task)
    (current : s.current = some other) : other ≠ task := by
  rintro rfl
  exact away.2 current

variable [DecidableEq T] {c : Clocks}

/-- What a call leaves of the run queue and of a thread's attributes. -/
def put (s : System T) (task : T) (r : FairClassRq T × FairAttr) : System T :=
  ⟨r.1, s.current, Function.update s.attr task r.2⟩

/-- The calls, with the thread that is picked, and the instructions of `FairAttr::update` between
them. The class scheduler enqueues a thread only if it is in no run queue and does not run, and
makes the picked one the current one. -/
inductive Step (c : Clocks) : System T → Option T → System T → Prop
  | store (s : System T) (task : T) (nice : Fin 40) : Step c s none (s.put task (s.rq, (s.attr task).store nice))
  | flag {s : System T} {task : T} (stored : (s.attr task).pending ≠ []) :
      Step c s none (s.put task (s.rq, (s.attr task).flag))
  | elsewhere {s : System T} {task : T} (away : s.Away task) (attr : FairAttr) : Step c s none (s.put task (s.rq, attr))
  | leave (s : System T) : Step c s none { s with current := none }
  | enqueue {s : System T} {task : T} {loaded : Nat} (spawn : Bool) (away : s.Away task)
      (loads : (s.attr task).Loads loaded) : Step c s none (s.put task (s.rq.enqueue c task (s.attr task) loaded spawn))
  | pickNext {s : System T} {item : Item T} {rest : List (Item T)} {loaded : Nat}
      (pop : s.rq.entities.Perm (item :: rest)) (least : ∀ other ∈ rest, item.key ≤ other.key)
      (loads : (s.attr item.task).Loads loaded) : Step c s (some item.task)
        { s.put item.task (s.rq.pickNext rest (s.attr item.task) loaded) with current := some item.task }
  | updateCurrent {s : System T} {task : T} {loaded : Nat} (rt : CurrentRuntime) (flags : UpdateFlags)
      (current : s.current = some task) (loads : (s.attr task).Loads loaded) :
      Step c s none (s.put task (s.rq.updateCurrent c rt (s.attr task) loaded flags).1)

variable {s s' : System T} {task : T} {r : FairClassRq T × FairAttr} {loaded : Nat}

theorem put_self : (s.put task r).attr task = r.2 := update_self _ _ _

theorem put_of_ne {other : T} (ne : other ≠ task) : (s.put task r).attr other = s.attr other := update_of_ne ne _ _

section

variable (inv : s.Inv)
include inv

/-- A nice value changes only what is pending. -/
theorem Inv.pending {attr : FairAttr} (weight : attr.weight = (s.attr task).weight)
    (vruntime : attr.vruntime = (s.attr task).vruntime) : (s.put task (s.rq, attr)).Inv := by
  have same : ∀ other, ((s.put task (s.rq, attr)).attr other).weight = (s.attr other).weight ∧
      ((s.put task (s.rq, attr)).attr other).vruntime = (s.attr other).vruntime := by
    intro other
    by_cases eq : other = task
    · subst eq
      rw [put_self]
      exact ⟨weight, vruntime⟩
    · rw [put_of_ne eq]
      exact ⟨rfl, rfl⟩
  refine ⟨inv.total, inv.once, fun item mem => ?_, inv.low, fun other current => ?_⟩
  · rw [(same item.task).1, (same item.task).2]
    exact inv.kept item mem
  · rw [(same other).2]
    exact inv.current other current

theorem Inv.kept_put (fresh : task ∉ s.rq.entities.map Item.task) : ∀ item ∈ s.rq.entities,
    ((s.put task r).attr item.task).weight = item.added ∧ ((s.put task r).attr item.task).vruntime = item.key := by
  intro item mem
  rw [put_of_ne (ne_of_fresh fresh mem)]
  exact inv.kept item mem

theorem Inv.away (away : s.Away task) (attr : FairAttr) : (s.put task (s.rq, attr)).Inv := by
  refine ⟨inv.total, inv.once, inv.kept_put away.1, inv.low, fun other current => ?_⟩
  rw [put_of_ne (away.ne current)]
  exact inv.current other current

theorem Inv.enqueue (away : s.Away task) (spawn : Bool) :
    (s.put task (s.rq.enqueue c task (s.attr task) loaded spawn)).Inv := by
  obtain ⟨-, weight, -⟩ := (s.attr task).fetchWeight_spec loaded
  refine ⟨?_, nodup_cons.mpr ⟨away.1, inv.once⟩, forall_mem_cons.mpr ⟨?_, inv.kept_put away.1⟩,
    forall_mem_cons.mpr ⟨?_, inv.low⟩, fun other current => ?_⟩
  · exact (congrArg (· + _) inv.total).trans (add_comm _ _)
  · rw [put_self]
    exact ⟨weight, rfl⟩
  · refine le_trans ?_ (le_max_right _ _)
    split
    · exact Nat.le_add_right _ _
    · exact le_rfl
  · rw [put_of_ne (away.ne current)]
    exact ⟨not_mem_cons_of_ne_of_not_mem (away.ne current) (inv.current other current).1,
      (inv.current other current).2⟩

theorem Inv.pickNext {item : Item T} {rest : List (Item T)} (pop : s.rq.entities.Perm (item :: rest)) :
    Inv { s.put item.task (s.rq.pickNext rest (s.attr item.task) loaded) with current := some item.task } := by
  obtain ⟨fresh, once⟩ := nodup_cons.mp ((pop.map Item.task).nodup_iff.mp inv.once)
  obtain ⟨old, -, vruntime⟩ := (s.attr item.task).fetchWeight_spec loaded
  have mem : item ∈ s.rq.entities := pop.mem_iff.mpr mem_cons_self
  have sub : ∀ other ∈ rest, other ∈ s.rq.entities := fun other mem => pop.mem_iff.mpr (mem_cons_of_mem _ mem)
  refine ⟨?_, once, fun other mem => ?_, fun other mem => inv.low other (sub other mem), ?_⟩
  · have total := (pop.map Item.added).sum_eq
    simp only [put, FairClassRq.pickNext]
    rw [old, (inv.kept item mem).1, inv.total, total, map_cons, sum_cons, Nat.add_sub_cancel_left]
  · exact (put_of_ne (ne_of_fresh fresh mem) : (s.put _ _).attr _ = _) ▸ inv.kept other (sub other mem)
  · rintro task ⟨⟩
    refine ⟨fresh, ?_⟩
    simp only [put, update_self, FairClassRq.pickNext]
    rw [vruntime, (inv.kept item mem).2]
    exact inv.low item mem

theorem Inv.updateCurrent (current : s.current = some task) (rt : CurrentRuntime) (flags : UpdateFlags) :
    (s.put task (s.rq.updateCurrent c rt (s.attr task) loaded flags).1).Inv ∧
      s.rq.minVruntime ≤ (s.rq.updateCurrent c rt (s.attr task) loaded flags).1.1.minVruntime := by
  obtain ⟨fresh, low⟩ := inv.current task current
  obtain ⟨-, -, vruntime⟩ := (s.attr task).fetchWeight_spec loaded
  unfold FairClassRq.updateCurrent
  split
  · exact ⟨inv.pending rfl rfl, le_rfl⟩
  refine ⟨⟨inv.total, inv.once, inv.kept_put fresh, (s.rq.le_minVruntime_iff.mp le_rfl).2, ?_⟩, ?_⟩
  · intro other current'
    cases current.symm.trans current'
    rw [put_self]
    exact ⟨fresh, (s.rq.le_minVruntime_iff.mp le_rfl).1⟩
  · refine s.rq.le_minVruntime_iff.mpr ⟨le_trans low ?_, inv.low⟩
    exact vruntime ▸ Nat.le_add_right _ _

theorem Inv.step {picked : Option T} (step : Step c s picked s') : s'.Inv ∧
    s.rq.minVruntime ≤ s'.rq.minVruntime := by
  cases step with
  | store task nice => exact ⟨inv.pending rfl rfl, le_rfl⟩
  | flag => exact ⟨inv.pending rfl rfl, le_rfl⟩
  | elsewhere away attr => exact ⟨inv.away away attr, le_rfl⟩
  | leave => exact ⟨⟨inv.total, inv.once, inv.kept, inv.low, nofun⟩, le_rfl⟩
  | enqueue spawn away => exact ⟨inv.enqueue away spawn, le_rfl⟩
  | pickNext pop => exact ⟨inv.pickNext pop, le_rfl⟩
  | updateCurrent rt flags current => exact inv.updateCurrent current rt flags

end

/-- In every run, the total weight is the sum of the weights added for the queued threads, and no queued thread has a
virtual runtime below `min_vruntime`, which never decreases; a thread that is picked has the least virtual runtime. -/
theorem run_fair {attr : T → FairAttr} {picks : List (Option T)}
    (run : Labelled.Run (Step c) ⟨.new, none, attr⟩ picks s) :
    s.rq.totalWeight = (s.rq.entities.map Item.added).sum ∧
    (∀ item ∈ s.rq.entities, s.rq.minVruntime ≤ (s.attr item.task).vruntime) ∧
    ∀ picked s', Step c s picked s' → s.rq.minVruntime ≤ s'.rq.minVruntime ∧ ∀ task, picked = some task →
      task ∈ s.rq.entities.map Item.task ∧
      ∀ item ∈ s.rq.entities, (s.attr task).vruntime ≤ (s.attr item.task).vruntime := by
  have start : Inv ⟨.new, none, attr⟩ := ⟨rfl, .nil, nofun, nofun, nofun⟩
  have inv : s.Inv := run.invariant (fun _ _ _ inv step => (inv.step step).1) start
  refine ⟨inv.total, fun item mem => ?_, fun picked s' step => ⟨(inv.step step).2, ?_⟩⟩
  · rw [(inv.kept item mem).2]
    exact inv.low item mem
  rintro task rfl
  cases step with
  | @pickNext item rest _ pop least =>
    have mem : item ∈ s.rq.entities := pop.mem_iff.mpr mem_cons_self
    refine ⟨mem_map_of_mem mem, fun other mem' => ?_⟩
    rw [(inv.kept item mem).2, (inv.kept other mem').2]
    obtain rfl | mem' := mem_cons.mp (pop.mem_iff.mp mem')
    · exact le_rfl
    · exact least other mem'

/-- Two threads are enqueued, the first of them gets a new weight, is picked and runs; then the second one is picked. -/
theorem run_fair_twoThreads : ∃ s : System Bool, Labelled.Run (Step ⟨1, 1, 1⟩)
    ⟨.new, none, fun _ => ⟨1024, false, [], 0⟩⟩ [none, none, none, none, some false, none] s ∧
    s.rq.totalWeight = 1024 ∧
    (s.rq.entities.map Item.added).sum = 1024 ∧ s.rq.minVruntime = 1 ∧ 1 ≤ (s.attr true).vruntime ∧
    ∃ s', Step ⟨1, 1, 1⟩ s (some true) s' ∧ 1 ≤ s'.rq.minVruntime := by
  have run : Labelled.Run (Step ⟨1, 1, 1⟩)
    (⟨.new, none, fun _ => ⟨1024, false, [], 0⟩⟩ : System Bool) _ _ :=
    .cons (@Step.enqueue _ _ _ _ false 0 true ⟨nofun, nofun⟩ nofun) <|
    .cons (@Step.enqueue _ _ _ _ true 0 true ⟨by decide, nofun⟩ nofun) <|
    .cons (.store _ false 25) <| .cons (@Step.flag _ _ _ _ false nofun) <|
    .cons (@Step.pickNext _ _ _ _ ⟨false, 1, 1024⟩ [⟨true, 1, 1024⟩] (niceToWeight 25) (.swap ..) (by decide)
      fun _ => mem_singleton.mpr rfl) <|
    .single (@Step.updateCurrent _ _ _ _ false 0 ⟨7, 7⟩ .tick rfl nofun)
  obtain ⟨total, low, next⟩ := run_fair run
  have picked := fun s' pick => And.intro pick (next (some true) s' pick).1
  exact ⟨_, run, rfl, total.symm, rfl, low _ (mem_singleton.mpr rfl), _,
    picked _ (@Step.pickNext _ _ _ _ ⟨true, 1, 1024⟩ [] 0 (.refl _) nofun nofun)⟩

end System

/-! ## Updates and fetches -/

/-- A call to `fetch_weight` that has loaded a weight with the flag, and then the pending weight; `passed` if an update
has stored since then. -/
structure Fetch where
  weight : Nat
  newWeight : Option Nat
  passed : Bool
  deriving DecidableEq

/-- `updating` while a call to `update` has yet to set the flag; `last` is the weight of the last one. -/
structure Weights where
  attr : FairAttr
  updating : Bool
  fetches : List Fetch
  last : Nat

namespace Weights

open Relation (ReflTransGen)

def new (nice : Fin 40) : Weights := ⟨⟨niceToWeight nice, false, [0], 0⟩, false, [], niceToWeight nice⟩

def pendingWeight (s : Weights) : Nat := s.attr.pending.headD 0

/-- The new weight that a call returns if nothing happens meanwhile. -/
def next (s : Weights) : Nat := (s.attr.fetchWeight s.pendingWeight).1.2

/-- A successful exchange. -/
def exchange (s : Weights) (f : Fetch) (newWeight : Nat) : Weights :=
  { s with attr := (s.attr.fetchWeight newWeight).2, fetches := s.fetches.erase f }

/-- The exchange of the call succeeds: it has loaded `newWeight`, and the weight is still the one it loaded. -/
def Exchanges (s : Weights) (f : Fetch) (newWeight : Nat) : Prop :=
  f ∈ s.fetches ∧ f.weight = s.attr.weight ∧ s.attr.hasPending = true ∧ f.newWeight = some newWeight

/-- One access to an atomic; exchanges succeed where `allowed`. -/
inductive Step (allowed : Weights → Fetch → Prop) (s : Weights) : Weights → Prop
  | store (nice : Fin 40) : s.updating = false → Step allowed s
      ⟨s.attr.store nice, true, s.fetches.map fun f => { f with passed := true }, niceToWeight nice⟩
  | flag : s.updating = true → Step allowed s { s with attr := s.attr.flag, updating := false }
  | load : s.attr.hasPending = true →
    Step allowed s { s with fetches := ⟨s.attr.weight, none, false⟩ :: s.fetches }
  | loadPending {f : Fetch} : f ∈ s.fetches → f.newWeight = none → Step allowed s { s with
      fetches := ⟨f.weight, some s.pendingWeight, false⟩ :: s.fetches.erase f }
  | exchange {f : Fetch} {newWeight : Nat} : s.Exchanges f newWeight → allowed s f →
    Step allowed s (s.exchange f newWeight)
  -- the weight is not the one loaded, or the weak exchange fails all the same
  | retry {f : Fetch} : f ∈ s.fetches → f.newWeight ≠ none → Step allowed s { s with
      fetches := (if s.attr.hasPending then [⟨s.attr.weight, none, false⟩] else []) ++ s.fetches.erase f }

/-- No update has stored since the call loaded the pending weight, except one that has yet to set the flag. -/
def InTime (s : Weights) (f : Fetch) : Prop := f.passed = false ∨ s.updating = true

structure Inv (s : Weights) : Prop where
  loaded : ∀ f ∈ s.fetches, ∀ newWeight, f.newWeight = some newWeight → f.passed = false →
    newWeight = s.pendingWeight
  pending : s.updating = true ∨ s.attr.hasPending = true → s.pendingWeight = s.last
  settled : s.updating = false → s.attr.hasPending = false → s.attr.weight = s.last

variable {s t : Weights}

theorem Inv.step (inv : s.Inv) (step : Step InTime s t) : t.Inv := by
  obtain ⟨loaded, pending, settled⟩ := inv
  cases step with
  | store nice =>
    refine ⟨?_, fun _ => rfl, nofun⟩
    simp only [mem_map]
    rintro _ ⟨f, -, rfl⟩ newWeight - passed
    cases passed
  | flag updating => exact ⟨loaded, fun _ => pending (.inl updating), nofun⟩
  | load => exact ⟨forall_mem_cons.mpr ⟨nofun, loaded⟩, pending, settled⟩
  | loadPending =>
    refine ⟨forall_mem_cons.mpr ⟨?_, fun f mem => loaded f (mem_of_mem_erase mem)⟩, pending, settled⟩
    rintro newWeight ⟨⟩ -
    rfl
  | retry =>
    refine ⟨fun f mem newWeight eq => ?_, pending, settled⟩
    obtain mem | mem := mem_append.mp mem
    · split at mem
      · cases mem_singleton.mp mem
        cases eq
      · cases mem
    · exact loaded f (mem_of_mem_erase mem) newWeight eq
  | @exchange f newWeight here inTime =>
    obtain ⟨mem, -, flagged, eq⟩ := here
    simp only [exchange, FairAttr.fetchWeight, flagged, if_true]
    refine ⟨fun f mem => loaded f (mem_of_mem_erase mem), fun _ => pending (.inr flagged), fun idle _ => ?_⟩
    obtain passed | updating := inTime
    · exact (loaded f mem newWeight eq passed).trans (pending (.inr flagged))
    · cases idle.symm.trans updating

/-- In a run in which no update stores between a call's load of the pending weight and its exchange, unless the flag is
then yet to be set, the weight of the last update is fetched next. Another exchange loses it if the weights differ. -/
theorem next_of_run {nice : Fin 40} (run : ReflTransGen (Step InTime) (new nice) s) (done : s.updating = false) :
    s.next = s.last ∧ ∀ f newWeight, s.Exchanges f newWeight →
      ((s.exchange f newWeight).next ≠ s.last ↔ f.passed = true ∧ newWeight ≠ s.pendingWeight) := by
  obtain ⟨loaded, pending, settled⟩ : s.Inv := by
    clear done
    induction run with
    | refl => exact ⟨nofun, by simp [new], fun _ _ => rfl⟩
    | tail _ step ih => exact ih.step step
  constructor
  · cases flagged : s.attr.hasPending with
    | true => simp only [next, FairAttr.fetchWeight, flagged, if_true, pending (.inr flagged)]
    | false => simp [next, FairAttr.fetchWeight, flagged, settled done flagged]
  · rintro f newWeight ⟨mem, -, flagged, eq⟩
    have kept : (s.exchange f newWeight).next = newWeight := by
      simp only [next, exchange, FairAttr.fetchWeight, flagged, if_true, Bool.false_eq_true, if_false]
    rw [kept, ← pending (.inr flagged)]
    refine ⟨fun ne => ⟨?_, ne⟩, And.right⟩
    by_contra passed
    exact ne (loaded f mem newWeight eq (by simpa using passed))

/-- The first of three updates is fetched; the third one stores after the pending weight of the second was loaded. -/
theorem next_of_run_threeUpdates : ∃ s f, ReflTransGen (Step InTime) (new 20) s ∧
    s.attr.weight = niceToWeight 21 ∧
    s.Exchanges f (niceToWeight 22) ∧ s.next = niceToWeight 23 ∧
    (s.exchange f (niceToWeight 22)).next ≠ niceToWeight 23 := by
  have fetched := (.single (.store 21 rfl) : ReflTransGen (Step InTime) (new 20) _)
    |>.tail (.flag rfl) |>.tail (.load rfl) |>.tail (.loadPending (mem_singleton.mpr rfl) rfl)
    |>.tail (.exchange ⟨mem_singleton.mpr rfl, rfl, rfl, rfl⟩ (.inl rfl))
  have run := fetched.tail (.store 22 rfl) |>.tail (.flag rfl) |>.tail (.load rfl)
    |>.tail (.loadPending (mem_singleton.mpr rfl) rfl) |>.tail (.store 23 rfl) |>.tail (.flag rfl)
  obtain ⟨next, lost⟩ := next_of_run run rfl
  have exchanges := lost ⟨niceToWeight 21, some (niceToWeight 22), true⟩ _
    ⟨mem_singleton.mpr rfl, rfl, rfl, rfl⟩
  exact ⟨_, _, run, rfl, ⟨mem_singleton.mpr rfl, rfl, rfl, rfl⟩, next, exchanges.mpr ⟨rfl, by decide⟩⟩

/-- The second of two updates is made after the pending weight of the first was loaded. -/
theorem update_lost : ∃ s, ReflTransGen (Step fun _ _ => True) (new 20) s ∧ s.updating = false ∧
    s.next = niceToWeight 21 ∧ s.last = niceToWeight 22 ∧ niceToWeight 21 ≠ niceToWeight 22 := by
  refine ⟨_, .tail (.tail (.tail (.tail (.tail (.tail (.single (.store 21 rfl)) (.flag rfl)) (.load rfl))
    (.loadPending (mem_singleton.mpr rfl) rfl)) (.store 22 rfl)) (.flag rfl))
    (.exchange ⟨mem_singleton.mpr rfl, rfl, rfl, rfl⟩ trivial), rfl, rfl, rfl, by decide⟩

end Weights

end OmegaOsx.Sched.Fair
