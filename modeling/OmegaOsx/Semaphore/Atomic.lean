import OmegaOsx.Semaphore.Basic
import OmegaOsx.Lib.Run

/-!
# Atomicity of `semop`

`perform_atomic_semop` first checks all operations of a call and then applies all of them. Each
check looks at the value before the call, so that the loops agree with performing the operations one
after the other only if no operation names a semaphore that an earlier one of the same call has
changed (`Apart`). `[-1, -1]` on a semaphore with value 1 leaves -1.
-/

namespace OmegaOsx.Semaphore

open List Option

open MlsDisk (bind_ok)

/-! ## One operation after the other -/

/-- An operation at its turn: it waits for zero, or changes the value within the limits. -/
def perform (vals : List Int) (op : SemBuf) : Option (List Int) :=
  match vals[op.idx]? with
  | none => none
  | some val =>
    if op.delta = 0 then if val = 0 then some vals else none
    else if 0 ≤ val + op.delta ∧ val + op.delta ≤ semvmx then some (vals.set op.idx (val + op.delta)) else none

def performAll (vals : List Int) (ops : List SemBuf) : Option (List Int) := ops.foldlM perform vals

def InRange (vals : List Int) : Prop := ∀ val ∈ vals, 0 ≤ val ∧ val ≤ semvmx

variable {op : SemBuf}

theorem InRange.perform {vals vals' : List Int} (range : InRange vals) (eq : perform vals op = some vals') :
    InRange vals' := by
  unfold Semaphore.perform at eq
  split at eq
  · cases eq
  split_ifs at eq with zero allowed
  · cases eq
    exact range
  · cases eq
    intro val mem
    obtain mem | rfl := mem_or_eq_of_mem_set mem
    · exact range val mem
    · assumption

variable {ops : List SemBuf}

theorem InRange.performAll {vals vals' : List Int} (range : InRange vals) (eq : performAll vals ops = some vals') :
    InRange vals' := by
  induction ops generalizing vals with
  | nil =>
    cases eq
    exact range
  | cons op ops ih =>
    obtain ⟨next, first, rest⟩ := bind_eq_some_iff.mp eq
    exact ih (range.perform first) rest

theorem performAll_append {vals vals' vals'' : List Int} {ops' : List SemBuf} (eq : performAll vals ops = some vals')
    (eq' : performAll vals' ops' = some vals'') : performAll vals (ops ++ ops') = some vals'' := by
  rw [performAll, foldlM_append]
  exact bind_eq_some_iff.mpr ⟨vals', eq, eq'⟩

/-! ## `perform_atomic_semop` -/

/-- No operation names a semaphore that an earlier one changes. -/
def Apart (sops : List SemBuf) : Prop := sops.Pairwise fun first later => first.idx = later.idx → first.delta = 0

instance instDecidableApart (sops : List SemBuf) : Decidable (Apart sops) :=
  inferInstanceAs (Decidable (sops.Pairwise _))

def vals (sems : List Sem) : List Int := sems.map Sem.val

@[simp] theorem vals_getElem? (sems : List Sem) (i : Nat) : (vals sems)[i]? = sems[i]?.map Sem.val := getElem?_map

theorem blocked_ne (op : SemBuf) : blocked op ≠ .ok true := by
  unfold blocked
  split <;> simp

variable {sems : List Sem}

/-- A check that passes says that the operation is allowed at the value it has looked at. -/
theorem checkOps_cons (pass : checkOps sems (op :: ops) = .ok (.ok true)) :
    (∃ sem, sems[op.idx]? = some sem ∧ (op.delta = 0 → sem.val = 0) ∧ 0 ≤ sem.val + op.delta ∧
      sem.val + op.delta ≤ semvmx) ∧ checkOps sems ops = .ok (.ok true) := by
  unfold checkOps at pass
  cases get : sems[op.idx]? with
  | none =>
    rw [get] at pass
    cases pass
  | some sem =>
    rw [get] at pass
    dsimp only at pass
    split_ifs at pass with zero negative large
    · exact absurd (Except.ok.inj pass) (blocked_ne op)
    · exact absurd (Except.ok.inj pass) (blocked_ne op)
    · cases pass
    · refine ⟨⟨sem, rfl, fun eq => ?_, Int.not_lt.mp negative, Int.not_lt.mp large⟩, pass⟩
      exact Classical.not_not.mp fun ne => zero ⟨eq, ne⟩

theorem perform_applyOp {sem : Sem} (pid : Nat) (get : sems[op.idx]? = some sem) (zero : op.delta = 0 → sem.val = 0)
    (low : 0 ≤ sem.val + op.delta) (high : sem.val + op.delta ≤ semvmx) :
    perform (vals sems) op = some (vals (applyOp pid sems op)) := by
  unfold perform applyOp
  rw [vals_getElem?, get]
  dsimp only [Option.map]
  by_cases eq : op.delta = 0
  · rw [if_pos eq, if_pos (zero eq), if_neg (not_not.mpr eq)]
  · rw [if_neg eq, if_pos ⟨low, high⟩, if_pos eq, vals, vals, map_set]

theorem applyOp_getElem?_of_ne {i pid : Nat} (ne : op.idx = i → op.delta = 0) :
    (applyOp pid sems op)[i]? = sems[i]? := by
  unfold applyOp
  split
  · rfl
  · split_ifs with delta
    · exact getElem?_set_ne fun eq => delta (ne eq)
    · rfl

/-- The second loop, from semaphores that still have the values the first loop has seen. -/
theorem performAll_of_checkOps (pid : Nat) (apart : Apart ops) (pass : checkOps sems ops = .ok (.ok true))
    {now : List Sem} (same : ∀ op ∈ ops, now[op.idx]? = sems[op.idx]?) :
    performAll (vals now) ops = some (vals (ops.foldl (applyOp pid) now)) := by
  induction ops generalizing now with
  | nil => rfl
  | cons op ops ih =>
    obtain ⟨⟨sem, get, zero, low, high⟩, pass⟩ := checkOps_cons pass
    obtain ⟨first, apart⟩ := pairwise_cons.mp apart
    have step := perform_applyOp pid ((same op mem_cons_self).trans get) zero low high
    refine bind_eq_some_iff.mpr ⟨_, step, ih apart pass fun later mem => ?_⟩
    rw [applyOp_getElem?_of_ne (first later mem)]
    exact same later (mem_cons_of_mem _ mem)

/-- `perform_atomic_semop` performs the operations in order or changes nothing. -/
theorem performAtomicSemop_inv {sems' : List Sem} {op : PendingOp} {result : Except Errno Bool}
    (eq : performAtomicSemop sems op = .ok (result, sems')) :
    (result = .ok true ∧ (Apart op.sops → performAll (vals sems) op.sops = some (vals sems'))) ∨
      (result ≠ .ok true ∧ sems' = sems) := by
  obtain ⟨checked, check, eq⟩ := bind_ok.mp eq
  split at eq
  · cases eq
    exact .inl ⟨rfl, fun apart => performAll_of_checkOps op.pid apart check fun _ _ => rfl⟩
  · next other =>
    cases eq
    exact .inr ⟨other, rfl⟩

/-! ## Waiters -/

/-- From `sems` on, the operations `done` of the queue have been performed in that order; the others still wait. -/
structure Served (sems : List Sem) (queue done : List PendingOp) (sems' : List Sem)
    (queue' : List PendingOp) : Prop where
  performed : (∀ op ∈ queue, Apart op.sops) →
    performAll (vals sems) (done.flatMap PendingOp.sops) = some (vals sems')
  split : queue.Perm (done ++ queue')

namespace Served

variable {sems' sems'' : List Sem} {queue queue' queue'' done done' : List PendingOp}

theorem nil (sems : List Sem) (queue : List PendingOp) : Served sems queue [] sems queue := ⟨fun _ => rfl, .refl _⟩

theorem apart (h : Served sems queue done sems' queue') (apart : ∀ op ∈ queue, Apart op.sops) :
    ∀ op ∈ queue', Apart op.sops :=
  fun op mem => apart op (h.split.mem_iff.mpr (mem_append_right _ mem))

theorem trans (h : Served sems queue done sems' queue') (h' : Served sems' queue' done' sems'' queue'') :
    Served sems queue (done ++ done') sems'' queue'' := by
  refine ⟨fun apart => ?_, ?_⟩
  · rw [flatMap_append]
    exact performAll_append (h.performed apart) (h'.performed (h.apart apart))
  · rw [append_assoc]
    exact h.split.trans (h'.split.append_left done)

/-- Operations that nobody looks at stay in the queue. -/
theorem frame (others : List PendingOp) (h : Served sems queue done sems' queue') :
    Served sems (others ++ queue) done sems' (others ++ queue') := by
  refine ⟨fun apart => h.performed fun op mem => apart op (mem_append_right _ mem), ?_⟩
  calc others ++ queue
    List.Perm _ (others ++ (done ++ queue')) := h.split.append_left others
    List.Perm _ (done ++ (others ++ queue')) := perm_append_comm_assoc others done queue'

/-- An operation is performed. -/
theorem one {op : PendingOp} (eq : performAtomicSemop sems op = .ok (.ok true, sems')) :
    Served sems (op :: queue) [op] sems' queue := by
  refine ⟨fun apart => ?_, .refl _⟩
  rw [flatMap_singleton]
  obtain ⟨-, performed⟩ | ⟨ne, -⟩ := performAtomicSemop_inv eq
  · exact performed (apart op mem_cons_self)
  · exact absurd rfl ne

end Served

variable {const : List PendingOp} {wakeQueue : List PendingOp}

theorem wakeConstOps_served {woken : Woken} (eq : wakeConstOps sems const wakeQueue = .ok woken) :
    ∃ done, woken.wakeQueue = wakeQueue ++ done ∧ Served sems const done woken.sems woken.waiting := by
  induction const generalizing sems wakeQueue woken with
  | nil =>
    cases eq
    exact ⟨[], (append_nil _).symm, .nil _ _⟩
  | cons constOp rest ih =>
    obtain ⟨⟨result, sems'⟩, first, eq⟩ := bind_ok.mp eq
    dsimp only at eq
    split at eq
    · obtain ⟨done, queue, served⟩ := ih eq
      exact ⟨constOp :: done, by rw [queue, append_assoc]; rfl, (Served.one first).trans served⟩
    · next other =>
      obtain ⟨woken', eq', eq⟩ := bind_ok.mp eq
      cases eq
      obtain ⟨done, queue, served⟩ := ih eq'
      obtain ⟨yes, -⟩ | ⟨-, rfl⟩ := performAtomicSemop_inv first
      · exact absurd yes other
      · exact ⟨done, queue, served.frame [constOp]⟩

variable {sops : List SemBuf}

theorem smartWakeupZero_served {woken : Woken} (eq : smartWakeupZero sems const wakeQueue sops = .ok woken) :
    ∃ done, woken.wakeQueue = wakeQueue ++ done ∧ Served sems const done woken.sems woken.waiting := by
  induction sops with
  | nil =>
    cases eq
    exact ⟨[], (append_nil _).symm, .nil _ _⟩
  | cons sop sops ih =>
    unfold smartWakeupZero at eq
    split at eq
    · cases eq
    · split_ifs at eq
      · exact wakeConstOps_served eq
      · exact ih eq

variable {alter : List PendingOp} {updated : Updated}

theorem updatePendingAlter_served (eq : updatePendingAlter sems alter const wakeQueue = .ok updated) :
    ∃ done, updated.wakeQueue.Perm (wakeQueue ++ done) ∧
      Served sems (alter ++ const) done updated.sems (updated.pendingAlter ++ updated.pendingConst) := by
  induction alter generalizing sems const wakeQueue updated with
  | nil =>
    cases eq
    exact ⟨[], by rw [append_nil], .nil _ _⟩
  | cons alterOp rest ih =>
    obtain ⟨⟨result, sems'⟩, first, eq⟩ := bind_ok.mp eq
    dsimp only at eq
    split at eq
    · obtain ⟨woken, wakeup, eq⟩ := bind_ok.mp eq
      obtain ⟨zeros, queue, served⟩ := smartWakeupZero_served wakeup
      obtain ⟨done, queue', served'⟩ := ih eq
      -- The operations that wait for zero are performed after the one that made them possible and woken before it.
      refine ⟨[alterOp] ++ zeros ++ done, queue'.trans ?_,
        ((Served.one first).trans (served.frame rest)).trans served'⟩
      rw [queue, append_assoc wakeQueue zeros, ← append_assoc wakeQueue ([alterOp] ++ zeros)]
      exact ((perm_append_comm).append_left wakeQueue).append_right done
    · next other =>
      obtain ⟨updated', eq', eq⟩ := bind_ok.mp eq
      cases eq
      obtain ⟨done, queue, served⟩ := ih eq'
      obtain ⟨yes, -⟩ | ⟨-, rfl⟩ := performAtomicSemop_inv first
      · exact absurd yes other
      · exact ⟨done, queue, served.frame [alterOp]⟩

theorem doSmartUpdate_served {op : PendingOp} (eq : doSmartUpdate sems alter const op = .ok updated) :
    ∃ done, updated.wakeQueue.Perm done ∧
      Served sems (alter ++ const) done updated.sems (updated.pendingAlter ++ updated.pendingConst) := by
  obtain ⟨woken, first, eq⟩ := bind_ok.mp eq
  have zeros : ∃ done, woken.wakeQueue = done ∧ Served sems const done woken.sems woken.waiting := by
    unfold smartUpdateConst at first
    split_ifs at first
    · cases first
      exact ⟨[], rfl, .nil _ _⟩
    · exact smartWakeupZero_served first
  obtain ⟨done, queue, served⟩ := zeros
  split_ifs at eq
  · cases eq
    exact ⟨done, by rw [queue], served.frame alter⟩
  · obtain ⟨done', queue', served'⟩ := updatePendingAlter_served eq
    exact ⟨done ++ done', by rwa [queue] at queue', (served.frame alter).trans served'⟩

/-! ## The calls -/

namespace SemSet

/-- All operations that wait. -/
def queue (s : SemSet) : List PendingOp := s.pendingAlter ++ s.pendingConst

def values (s : SemSet) : List Int := vals s.sems

/-- The calls, with what `sem_op` returns before it waits. -/
inductive Op
  | semop (sops : List SemBuf) (pid : Nat) (result : SemOpResult)
  | setval (semNum : Nat) (val : Int) (pid : Nat) (result : Except Errno Unit)
  | expire (alter : Bool) (pid : Nat)

/-- Calls whose operations do not name a semaphore that an earlier operation of the same call changes. -/
inductive Step : SemSet → Op → SemSet → Prop
  | semop {s s' : SemSet} {sops : List SemBuf} {pid : Nat} {result : SemOpResult} (apart : Apart sops)
      (eq : s.semOp sops pid = .ok (result, s')) : Step s (.semop sops pid result) s'
  | setval {s s' : SemSet} {semNum pid : Nat} {val : Int} {result : Except Errno Unit}
      (eq : s.setval semNum val pid = .ok (result, s')) : Step s (.setval semNum val pid result) s'
  | expire (s : SemSet) (alter : Bool) (pid : Nat) : Step s (.expire alter pid) (s.expire alter pid)

/-- From the values `start` on, the waiting operations `done` have been performed in that order. Their callers see the
status `Normal`, and the others still wait. -/
structure Completes (s : SemSet) (start : List Int) (done : List PendingOp) (s' : SemSet) : Prop where
  performed : performAll start (done.flatMap PendingOp.sops) = some s'.values
  split : s.queue.Perm (done ++ s'.queue)
  status : ∀ id, s'.status id = if id ∈ done.map PendingOp.id then .normal else s.status id

/-- What a call does to the values and to the operations that wait. -/
def Atomic (s : SemSet) : Op → SemSet → Prop
  | .semop sops _ .done, s' =>
    ∃ start done, performAll s.values sops = some start ∧ s.Completes start done s'
  | .semop _ _ (.failed _), s' => s'.values = s.values ∧ s'.queue = s.queue ∧ s'.status = s.status
  | .semop sops pid .wait, s' =>
    s'.values = s.values ∧ s'.queue.Perm (⟨sops, s.next, pid⟩ :: s.queue) ∧ s'.status = s.status
  | .setval semNum val _ (.ok _), s' =>
    semNum < s.values.length ∧ ∃ done, s.Completes (s.values.set semNum val) done s'
  | .setval _ _ _ (.error _), s' => s' = s
  | .expire _ _, s' => s'.values = s.values ∧ s'.queue.Sublist s.queue ∧ s'.status = s.status

/-- The operations that wait are apart, and their callers have not been told that they are done. -/
structure Inv (s : SemSet) : Prop where
  range : InRange s.values
  apart : ∀ op ∈ s.queue, Apart op.sops
  ids : (s.queue.map PendingOp.id).Nodup
  fresh : ∀ op ∈ s.queue, op.id < s.next
  waiting : ∀ op ∈ s.queue, s.status op.id = .pending
  unused : ∀ id, s.next ≤ id → s.status id = .pending

theorem new_inv (nsems pid : Nat) : (new nsems pid).Inv where
  range val mem := by
    simp only [values, vals, new, map_replicate] at mem
    rw [eq_of_mem_replicate mem]
    decide
  apart _ mem := by cases mem
  ids := nodup_nil
  fresh _ mem := by cases mem
  waiting _ mem := by cases mem
  unused _ _ := rfl

variable {s s' : SemSet}

/-- What follows from `Served` for the set. -/
theorem completes_of_served {t : SemSet} {done : List PendingOp} (apart : ∀ op ∈ t.queue, Apart op.sops)
    (wakeQueue : updated.wakeQueue.Perm done)
    (served : Served t.sems t.queue done updated.sems (updated.pendingAlter ++ updated.pendingConst)) :
    t.Completes t.values done ((t.update updated).wake updated.wakeQueue) := by
  refine ⟨served.performed apart, served.split, fun id => ?_⟩
  have same : id ∈ updated.wakeQueue.map PendingOp.id ↔ id ∈ done.map PendingOp.id :=
    (wakeQueue.map PendingOp.id).mem_iff
  simp only [wake, same]
  rfl

/-- The invariant after operations have been completed. -/
theorem Inv.completes {start : List Int} {done : List PendingOp} {next : Nat} (inv : s.Inv) (range : InRange start)
    (h : s.Completes start done s') (le : s.next ≤ next) (eq : s'.next = next) : s'.Inv := by
  have sub : ∀ op ∈ s'.queue, op ∈ s.queue := fun op mem => h.split.mem_iff.mpr (mem_append_right _ mem)
  have ids : ((done ++ s'.queue).map PendingOp.id).Nodup := (h.split.map PendingOp.id).nodup_iff.mp inv.ids
  rw [map_append, nodup_append] at ids
  refine ⟨range.performAll h.performed, fun op mem => inv.apart op (sub op mem), ids.2.1, ?_, ?_, ?_⟩
  · intro op mem
    exact eq ▸ lt_of_lt_of_le (inv.fresh op (sub op mem)) le
  · intro op mem
    rw [h.status, if_neg, inv.waiting op (sub op mem)]
    exact fun other => ids.2.2 _ other _ (mem_map_of_mem mem) rfl
  · intro id le'
    rw [h.status, if_neg, inv.unused id (by omega)]
    intro other
    obtain ⟨op, mem, rfl⟩ := mem_map.mp other
    have := inv.fresh op (h.split.mem_iff.mpr (mem_append_left _ mem))
    omega

/-- An operation of the caller joins those that wait. -/
theorem Inv.wait {pid : Nat} (inv : s.Inv) (apart : Apart sops) (values : s'.values = s.values)
    (perm : s'.queue.Perm (⟨sops, s.next, pid⟩ :: s.queue)) (status : s'.status = s.status)
    (next : s'.next = s.next + 1) : s'.Inv := by
  refine ⟨values ▸ inv.range, ?_, ?_, ?_, ?_, ?_⟩
  · intro op mem
    obtain rfl | mem := mem_cons.mp (perm.mem_iff.mp mem)
    · exact apart
    · exact inv.apart op mem
  · refine (perm.map PendingOp.id).nodup_iff.mpr (nodup_cons.mpr ⟨?_, inv.ids⟩)
    intro mem
    obtain ⟨op, mem, eq⟩ := mem_map.mp mem
    exact absurd (inv.fresh op mem) (by rw [eq]; exact lt_irrefl _)
  · intro op mem
    obtain rfl | mem := mem_cons.mp (perm.mem_iff.mp mem)
    · exact next ▸ Nat.lt_succ_self _
    · exact next ▸ Nat.lt_succ_of_lt (inv.fresh op mem)
  · intro op mem
    rw [status]
    obtain rfl | mem := mem_cons.mp (perm.mem_iff.mp mem)
    · exact inv.unused _ le_rfl
    · exact inv.waiting op mem
  · intro id le
    rw [status]
    exact inv.unused id (by omega)

/-- Fewer operations wait. -/
theorem Inv.sublist (inv : s.Inv) (values : s'.values = s.values) (sub : s'.queue.Sublist s.queue)
    (status : s'.status = s.status) (next : s.next ≤ s'.next) : s'.Inv where
  range := values ▸ inv.range
  apart op mem := inv.apart op (sub.subset mem)
  ids := inv.ids.sublist (sub.map _)
  fresh op mem := lt_of_lt_of_le (inv.fresh op (sub.subset mem)) next
  waiting op mem := status ▸ inv.waiting op (sub.subset mem)
  unused id le := status ▸ inv.unused id (le_trans next le)

/-- What `sem_op` does after its own operations have been performed. -/
theorem finishSemOp_completes {op : PendingOp} {alter : Bool} (apart : ∀ op ∈ s.queue, Apart op.sops)
    (eq : s.finishSemOp op alter = .ok s') : (∃ done, s.Completes s.values done s') ∧ s'.next = s.next := by
  unfold finishSemOp at eq
  split_ifs at eq
  · obtain ⟨updated, update, eq⟩ := bind_ok.mp eq
    cases eq
    obtain ⟨done, wakeQueue, served⟩ := doSmartUpdate_served update
    exact ⟨⟨done, completes_of_served apart wakeQueue served⟩, rfl⟩
  · cases eq
    exact ⟨⟨[], rfl, .refl _, fun _ => rfl⟩, rfl⟩

theorem semOp_atomic {pid : Nat} {result : SemOpResult} (inv : s.Inv) (apart : Apart sops)
    (eq : s.semOp sops pid = .ok (result, s')) : s.Atomic (.semop sops pid result) s' ∧ s'.Inv := by
  obtain ⟨⟨performed, sems⟩, perform, eq⟩ := bind_ok.mp eq
  have inverted := performAtomicSemop_inv perform
  dsimp only at eq
  split at eq
  · -- an error is returned
    cases eq
    obtain ⟨no, -⟩ | ⟨-, rfl⟩ := inverted
    · cases no
    · exact ⟨⟨rfl, rfl, rfl⟩, inv.sublist rfl (.refl _) rfl (Nat.le_succ _)⟩
  · obtain ⟨t, finish, eq⟩ := bind_ok.mp eq
    cases eq
    obtain ⟨-, sequence⟩ | ⟨no, -⟩ := inverted
    · obtain ⟨⟨done, completes⟩, next⟩ :=
        finishSemOp_completes (s := { s with sems, next := s.next + 1 }) inv.apart finish
      -- `finish` starts from a set with the new values; its queues and statuses are the ones of `s`
      have completes : s.Completes (vals sems) done s' := ⟨completes.performed, completes.split, completes.status⟩
      exact ⟨⟨_, done, sequence apart, completes⟩,
        inv.completes (inv.range.performAll (sequence apart)) completes (Nat.le_succ _) next⟩
    · exact absurd rfl no
  · obtain ⟨no, -⟩ | ⟨-, rfl⟩ := inverted
    · cases no
    have perm : ∀ op : PendingOp, (s.pendingAlter ++ [op] ++ s.pendingConst).Perm (op :: s.queue) := by
      intro op
      rw [append_assoc]
      exact perm_middle
    have perm' : ∀ op : PendingOp, (s.pendingAlter ++ (s.pendingConst ++ [op])).Perm (op :: s.queue) := by
      intro op
      rw [← append_assoc]
      exact perm_append_singleton _ _
    split_ifs at eq
    · cases eq
      exact ⟨⟨rfl, perm _, rfl⟩, inv.wait apart rfl (perm _) rfl rfl⟩
    · cases eq
      exact ⟨⟨rfl, perm' _, rfl⟩, inv.wait apart rfl (perm' _) rfl rfl⟩

theorem updateSetval_served {val : Int} (eq : updateSetval sems alter const val = .ok updated) :
    ∃ done, updated.wakeQueue.Perm done ∧
      Served sems (alter ++ const) done updated.sems (updated.pendingAlter ++ updated.pendingConst) := by
  unfold updateSetval at eq
  split_ifs at eq
  · obtain ⟨woken, wake, eq⟩ := bind_ok.mp eq
    cases eq
    obtain ⟨done, queue, served⟩ := wakeConstOps_served wake
    exact ⟨done, by rw [queue, nil_append], served.frame alter⟩
  · exact updatePendingAlter_served eq

theorem setval_atomic {semNum pid : Nat} {val : Int} {result : Except Errno Unit} (inv : s.Inv)
    (eq : s.setval semNum val pid = .ok (result, s')) : s.Atomic (.setval semNum val pid result) s' ∧ s'.Inv := by
  unfold setval at eq
  split_ifs at eq with range missing
  · cases eq
    exact ⟨rfl, inv⟩
  · obtain ⟨updated, update, eq⟩ := bind_ok.mp eq
    cases eq
    obtain ⟨done, wakeQueue, served⟩ := updateSetval_served update
    have completes := completes_of_served
      (t := { s with sems := s.sems.set semNum ⟨val, pid⟩ }) inv.apart wakeQueue served
    have start : vals (s.sems.set semNum ⟨val, pid⟩) = s.values.set semNum val := map_set
    have completes : s.Completes (s.values.set semNum val) done ((s.update updated).wake updated.wakeQueue) :=
      ⟨start ▸ completes.performed, completes.split, completes.status⟩
    refine ⟨⟨?_, done, completes⟩, inv.completes ?_ completes le_rfl rfl⟩
    · rw [values, vals, length_map]
      omega
    intro other mem
    obtain mem | rfl := mem_or_eq_of_mem_set mem
    · exact inv.range other mem
    · exact ⟨range.1, Int.le_of_lt range.2⟩
  · cases eq
    exact ⟨rfl, inv⟩

theorem expire_atomic (inv : s.Inv) (alter : Bool) (pid : Nat) :
    s.Atomic (.expire alter pid) (s.expire alter pid) ∧ (s.expire alter pid).Inv := by
  have sub : (s.expire alter pid).queue.Sublist s.queue := by
    cases alter
    · exact (List.Sublist.refl _).append filter_sublist
    · exact filter_sublist.append (List.Sublist.refl _)
  cases alter
  · exact ⟨⟨rfl, sub, rfl⟩, inv.sublist rfl sub rfl le_rfl⟩
  · exact ⟨⟨rfl, sub, rfl⟩, inv.sublist rfl sub rfl le_rfl⟩

theorem Step.atomic {op : Op} (inv : s.Inv) (step : Step s op s') : s.Atomic op s' ∧ s'.Inv := by
  cases step with
  | semop apart eq => exact semOp_atomic inv apart eq
  | setval eq => exact setval_atomic inv eq
  | expire alter pid => exact expire_atomic inv alter pid

/-- In every run in which no operation of a call names a semaphore that an earlier one changes, the values stay within
the limits, operations that wait have not been performed, and each further call performs the operations it completes one
after the other or changes no value. -/
theorem run_atomic {nsems pid : Nat} {ops : List Op} (run : Labelled.Run Step (new nsems pid) ops s) :
    InRange s.values ∧ (∀ op ∈ s.queue, s.status op.id = .pending) ∧ ∀ op s', Step s op s' →
    s.Atomic op s' := by
  have keep : ∀ a op b, a.Inv → Step a op b → b.Inv := fun _ _ _ inv step => (step.atomic inv).2
  have inv : s.Inv := run.invariant keep (new_inv nsems pid)
  exact ⟨inv.range, inv.waiting, fun op s' step => (step.atomic inv).1⟩

/-- One semaphore with the value 1. -/
def oneSet : SemSet := { new 1 1 with sems := [⟨1, 1⟩] }

def down : SemBuf := ⟨0, -1, 0⟩

/-- A call that takes one semaphore after the other waits; the call that raises both completes it. -/
theorem run_atomic_twoSems : ∃ s t, (new 2 1).semOp [down, ⟨1, -1, 0⟩] 7 = .ok (.wait, s) ∧
    s.semOp [⟨0, 1, 0⟩, ⟨1, 1, 0⟩] 8 = .ok (.done, t) ∧ s.status 0 = .pending ∧ t.status 0 = .normal ∧
    t.values = [0, 0] ∧ s.Atomic (.semop [⟨0, 1, 0⟩, ⟨1, 1, 0⟩] 8 .done) t := by
  have waits : Step (new 2 1) (.semop [down, ⟨1, -1, 0⟩] 7 .wait)
      { new 2 1 with pendingAlter := [⟨[down, ⟨1, -1, 0⟩], 0, 7⟩], next := 1 } := .semop (by decide +kernel) rfl
  obtain ⟨-, pending, atomic⟩ := run_atomic (.single waits)
  exact ⟨_, _, rfl, rfl, pending _ mem_cons_self, rfl, rfl, atomic _ _ (.semop (by decide +kernel) rfl)⟩

/-- Two decrements of one call on a semaphore with the value 1: both pass their checks, and the value becomes -1. -/
theorem double_decrement : (new 1 1).setval 0 1 1 = .ok (.ok (), oneSet) ∧
    (oneSet.semOp [down, down] 1).toOption.map (fun r => (r.1, r.2.values)) = some (.done, [-1]) ∧
    performAll oneSet.values [down, down] = none ∧ ¬ InRange [-1] := by
  refine ⟨rfl, by decide +kernel, by decide +kernel, fun range => ?_⟩
  exact absurd (range (-1) mem_cons_self).1 (by decide)

end SemSet

end OmegaOsx.Semaphore
