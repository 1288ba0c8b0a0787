import Mathlib.Data.List.Basic
import OmegaOsx.MlsDisk.Basic

/-!
# System V semaphores

A semaphore set of `ipc/semaphore/system_v`: the semaphores, the operations that wait for them, and the calls that work
under the lock of the set. A blocked `semop` is a `PendingOp` in one of two lists, and whoever changes a value later
performs it on behalf of the caller, who learns of it through the status they share.
-/

namespace OmegaOsx.Semaphore

inductive Errno
  | eagain
  | efbig
  | einval
  | erange
  deriving DecidableEq, Repr

inductive Fault
  | panic (msg : String)
  deriving DecidableEq, Repr

abbrev Res (α : Type) := Except Fault α

def semvmx : Int := 32767

structure SemBuf where
  semNum : UInt16
  semOp : Int16
  semFlags : Int16
  deriving DecidableEq, Repr

namespace SemBuf

variable (op : SemBuf)

/-- `IpcFlags::IPC_NOWAIT` is set. -/
def nowait : Bool := op.semFlags.toBitVec.getLsbD 11

/-- `IpcFlags::SEM_UNDO` is set. -/
def undo : Bool := op.semFlags.toBitVec.getLsbD 12

/-- The index of the semaphore. -/
def idx : Nat := op.semNum.toNat

/-- `i32::from(op.sem_op)`. -/
def delta : Int := op.semOp.toInt

end SemBuf

inductive Status
  | normal
  | pending
  | removed
  deriving DecidableEq, Repr

/-- `id` stands for the status that the operation shares with its caller. -/
structure PendingOp where
  sops : List SemBuf
  id : Nat
  pid : Nat
  deriving DecidableEq, Repr

structure Sem where
  val : Int
  latestModifiedPid : Nat
  deriving DecidableEq, Repr

/-- `SemSetInner`, with the statuses of the operations that have been started. -/
structure SemSet where
  sems : List Sem
  pendingAlter : List PendingOp
  pendingConst : List PendingOp
  /-- The number of operations started so far. -/
  next : Nat
  status : Nat → Status

/-! ### `perform_atomic_semop` -/

/-- What an operation that is not allowed returns: an error, or `Ok(false)` to wait. -/
def blocked (op : SemBuf) : Except Errno Bool := if op.nowait then .error .eagain else .ok false

/-- The first loop of `perform_atomic_semop`. Every operation is checked against the values before the call. -/
def checkOps (sems : List Sem) : List SemBuf → Res (Except Errno Bool)
  | [] => .ok (.ok true)
  | op :: ops =>
    match sems[op.idx]? with
    | none => .ok (.error .efbig)
    | some sem =>
      if op.delta = 0 ∧ sem.val ≠ 0 then .ok (blocked op)
      else if sem.val + op.delta < 0 then .ok (blocked op)
      else if semvmx < sem.val + op.delta then .ok (.error .erange)
      else if op.undo then .error (.panic "not yet implemented")
      else checkOps sems ops

/-- One round of the second loop. The index is in range, because the first loop has seen it. -/
def applyOp (pid : Nat) (sems : List Sem) (op : SemBuf) : List Sem :=
  match sems[op.idx]? with
  | none => sems
  | some sem => if op.delta ≠ 0 then sems.set op.idx ⟨sem.val + op.delta, pid⟩ else sems

variable (sems : List Sem)

def performAtomicSemop (op : PendingOp) : Res (Except Errno Bool × List Sem) := do
  let result ← checkOps sems op.sops
  match result with
  | .ok true => pure (.ok true, op.sops.foldl (applyOp op.pid) sems)
  | result => pure (result, sems)

/-! ### Operations performed on behalf of waiters -/

/-- The semaphores, the operations that still wait, and the ones to be woken. -/
structure Woken where
  sems : List Sem
  waiting : List PendingOp
  wakeQueue : List PendingOp

def wakeConstOps (sems : List Sem) (pendingConst wakeQueue : List PendingOp) : Res Woken :=
  match pendingConst with
  | [] => pure ⟨sems, [], wakeQueue⟩
  | constOp :: rest => do
    let (result, sems) ← performAtomicSemop sems constOp
    match result with
    | .ok true => wakeConstOps sems rest (wakeQueue ++ [constOp])
    | _ => do
      let woken ← wakeConstOps sems rest wakeQueue
      pure { woken with waiting := constOp :: woken.waiting }

/-- The loop of `do_smart_wakeup_zero` over the operations of a call. -/
def smartWakeupZero (sems : List Sem) (pendingConst : List PendingOp) (wakeQueue : List PendingOp) :
    List SemBuf → Res Woken
  | [] => pure ⟨sems, pendingConst, wakeQueue⟩
  | sop :: sops =>
    match sems[sop.idx]? with
    | none => .error (.panic "called `Option::unwrap()` on a `None` value")
    | some sem =>
      if sem.val = 0 then wakeConstOps sems pendingConst wakeQueue
      else smartWakeupZero sems pendingConst wakeQueue sops

def doSmartWakeupZero (pendingConst : List PendingOp) (pendingOp : PendingOp) (wakeQueue : List PendingOp) :
    Res Woken :=
  smartWakeupZero sems pendingConst wakeQueue pendingOp.sops

/-- What `update_pending_alter` changes. -/
structure Updated where
  sems : List Sem
  pendingAlter : List PendingOp
  pendingConst : List PendingOp
  wakeQueue : List PendingOp

def updatePendingAlter (sems : List Sem) (pendingAlter pendingConst wakeQueue : List PendingOp) : Res Updated :=
  match pendingAlter with
  | [] => pure ⟨sems, [], pendingConst, wakeQueue⟩
  | alterOp :: rest => do
    let (result, sems) ← performAtomicSemop sems alterOp
    match result with
    | .ok true => do
      let woken ← doSmartWakeupZero sems pendingConst alterOp wakeQueue
      updatePendingAlter woken.sems rest woken.waiting (woken.wakeQueue ++ [alterOp])
    | _ => do
      let updated ← updatePendingAlter sems rest pendingConst wakeQueue
      pure { updated with pendingAlter := alterOp :: updated.pendingAlter }

/-- The first half of `do_smart_update`: nothing to do without operations that wait for zero. -/
def smartUpdateConst (pendingConst : List PendingOp) (pendingOp : PendingOp) : Res Woken :=
  if pendingConst.isEmpty then pure ⟨sems, pendingConst, []⟩ else doSmartWakeupZero sems pendingConst pendingOp []

def doSmartUpdate (pendingAlter pendingConst : List PendingOp) (pendingOp : PendingOp) : Res Updated := do
  let woken ← smartUpdateConst sems pendingConst pendingOp
  if pendingAlter.isEmpty then pure ⟨woken.sems, pendingAlter, woken.waiting, woken.wakeQueue⟩
  else updatePendingAlter woken.sems pendingAlter woken.waiting woken.wakeQueue

/-! ### The calls -/

/-- The flags of `get_sops_flags`: an operation changes a value; a semaphore may be named after it was changed. -/
def getSopsFlags (sops : List SemBuf) : Bool × Bool :=
  let (alter, dupsop, _) := sops.foldl
    (fun (alter, dupsop, dup) sop =>
      let mask : BitVec 64 := 1#64 <<< (sop.idx % 64)
      let dupsop := dupsop || dup &&& mask != 0#64
      if sop.delta ≠ 0 then (true, dupsop, dup ||| mask) else (alter, dupsop, dup))
    (false, false, 0#64)
  (alter, dupsop)

namespace SemSet

def new (nsems : Nat) (pid : Nat) : SemSet where
  sems := List.replicate nsems ⟨0, pid⟩
  pendingAlter := []
  pendingConst := []
  next := 0
  status _ := .pending

variable (s : SemSet)

/-- Every operation of the wake queue is marked as done. -/
def wake (wakeQueue : List PendingOp) : SemSet :=
  { s with status := fun id => if id ∈ wakeQueue.map PendingOp.id then .normal else s.status id }

def update (updated : Updated) : SemSet :=
  { s with sems := updated.sems, pendingAlter := updated.pendingAlter, pendingConst := updated.pendingConst }

/-- How `sem_op` goes on after it has released the lock. -/
inductive SemOpResult
  | done
  | failed (errno : Errno)
  | wait
  deriving DecidableEq, Repr

/-- The case in which the operations have been performed. -/
def finishSemOp (op : PendingOp) (alter : Bool) : Res SemSet :=
  if alter then do
    let updated ← doSmartUpdate s.sems s.pendingAlter s.pendingConst op
    pure ((s.update updated).wake updated.wakeQueue)
  else pure s

/-- `sem_op` up to where it returns or waits. -/
def semOp (sops : List SemBuf) (pid : Nat) : Res (SemOpResult × SemSet) := do
  let op : PendingOp := { sops, id := s.next, pid }
  let alter := (getSopsFlags sops).1
  let (result, sems) ← performAtomicSemop s.sems op
  match result with
  | .error errno => pure (.failed errno, { s with sems, next := s.next + 1 })
  | .ok true => do
    let s ← finishSemOp { s with sems, next := s.next + 1 } op alter
    pure (.done, s)
  | .ok false =>
    if alter then pure (.wait, { s with sems, next := s.next + 1, pendingAlter := s.pendingAlter ++ [op] })
    else pure (.wait, { s with sems, next := s.next + 1, pendingConst := s.pendingConst ++ [op] })

/-- What `sem_op` does when it was woken by its timer and has seen the status `Pending`: all operations of the process
are removed from the list. -/
def expire (alter : Bool) (pid : Nat) : SemSet :=
  if alter then { s with pendingAlter := s.pendingAlter.filter fun op => op.pid != pid }
  else { s with pendingConst := s.pendingConst.filter fun op => op.pid != pid }

/-- The operations `setval` looks at: those that wait for zero, or the others. -/
def updateSetval (pendingAlter pendingConst : List PendingOp) (val : Int) : Res Updated :=
  if val = 0 then do
    let woken ← wakeConstOps sems pendingConst []
    pure ⟨woken.sems, pendingAlter, woken.waiting, woken.wakeQueue⟩
  else updatePendingAlter sems pendingAlter pendingConst []

def setval (semNum : Nat) (val : Int) (pid : Nat) : Res (Except Errno Unit × SemSet) :=
  if ¬ (0 ≤ val ∧ val < semvmx) then pure (.error .erange, s)
  else if s.sems.length ≤ semNum then pure (.error .einval, s)
  else do
    let updated ← updateSetval (s.sems.set semNum ⟨val, pid⟩) s.pendingAlter s.pendingConst val
    pure (.ok (), (s.update updated).wake updated.wakeQueue)

end SemSet

end OmegaOsx.Semaphore
