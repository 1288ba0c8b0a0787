import OmegaOsx.Credentials.CapSet

/-!
# The credentials of a thread

`Credentials_` of `credentials/credentials_.rs` with the calls that change user IDs, group IDs and capabilities, and the
system calls on top of them. Each atomic field is a field of `Credentials` and each call a function of the state; a call
that fails has changed nothing, because every check stands before the first store.
-/

set_option linter.dupNamespace false

namespace OmegaOsx.Credentials

structure Uid where
  val : UInt32
  deriving DecidableEq, Repr

def Uid.isRoot (uid : Uid) : Bool := uid.val == 0

structure Gid where
  val : UInt32
  deriving DecidableEq, Repr

inductive Errno
  | einval
  | eperm
  | efault
  deriving DecidableEq, Repr

structure Error where
  errno : Errno
  msg : String
  deriving DecidableEq, Repr

/-- `Credentials_`, without the supplementary groups, which none of the calls reads. -/
structure Credentials where
  ruid : Uid
  euid : Uid
  suid : Uid
  fsuid : Uid
  rgid : Gid
  egid : Gid
  sgid : Gid
  fsgid : Gid
  inheritableCapset : CapSet
  permittedCapset : CapSet
  effectiveCapset : CapSet
  keepCapabilities : Bool
  deriving DecidableEq

namespace Credentials

def new (uid : Uid) (gid : Gid) (capset : CapSet) : Credentials where
  ruid := uid
  euid := uid
  suid := uid
  fsuid := uid
  rgid := gid
  egid := gid
  sgid := gid
  fsgid := gid
  inheritableCapset := capset
  permittedCapset := capset
  effectiveCapset := capset
  keepCapabilities := false

variable (s : Credentials)

def isPrivileged : Bool := s.euid.isRoot

/-- One check of `check_uid_perm` and `check_gid_perm`: an ID that is given is one of the old ones. -/
def checkOld {Id : Type} [DecidableEq Id] (new : Option Id) (old : List Id) (msg : String) : Except Error Unit :=
  match new with
  | none => .ok ()
  | some id => if id ∈ old then .ok () else .error ⟨.eperm, msg⟩

/-! ### User IDs -/

/-- For `setreuid` the real ID cannot be set to the old saved one, for `setresuid` it can. -/
def checkUidPerm (ruid euid suid : Option Uid) (ruidMayBeOldSuid : Bool) : Except Error Unit :=
  if s.isPrivileged then .ok ()
  else do
    checkOld ruid ([s.ruid, s.euid] ++ if ruidMayBeOldSuid then [s.suid] else [])
      "ruid can only be one of old ruid, old euid (and old suid)."
    checkOld euid [s.ruid, s.euid, s.suid] "euid can only be one of old ruid, old euid and old suid."
    checkOld suid [s.ruid, s.euid, s.suid] "suid can only be one of old ruid, old euid and old suid."

/-- `had_root && all_nonroot` of `set_resuid_unchecked`. -/
def leavesRoot (oldRuid oldEuid oldSuid : Uid) : Bool :=
  let hadRoot := oldRuid.isRoot || oldEuid.isRoot || oldSuid.isRoot
  let allNonroot := !s.ruid.isRoot && !s.euid.isRoot && !s.suid.isRoot
  hadRoot && allNonroot

/-- The second half of `set_resuid_unchecked`: the capabilities follow the change of the three IDs. -/
def adjustCapabilities (oldRuid oldEuid oldSuid : Uid) : Credentials :=
  if s.leavesRoot oldRuid oldEuid oldSuid then
    let s := if s.keepCapabilities then s else { s with permittedCapset := .empty, inheritableCapset := .empty }
    { s with effectiveCapset := .empty }
  else
    let s := if oldEuid.isRoot && !s.euid.isRoot then { s with effectiveCapset := .empty } else s
    if !oldEuid.isRoot && s.euid.isRoot then { s with effectiveCapset := s.permittedCapset } else s

def setResuidUnchecked (ruid euid suid : Option Uid) : Credentials :=
  adjustCapabilities { s with ruid := ruid.getD s.ruid, euid := euid.getD s.euid, suid := suid.getD s.suid }
    s.ruid s.euid s.suid

def setFsuidUnchecked (fsuid : Uid) : Credentials :=
  if s.fsuid.isRoot && !fsuid.isRoot then
    { s with fsuid, effectiveCapset := s.effectiveCapset.diff .fileSystem }
  else { s with fsuid }

/-- An unprivileged thread that may not take the ID is left as it is, without an error. -/
def setUid (uid : Uid) : Credentials :=
  if s.isPrivileged then (s.setResuidUnchecked (some uid) (some uid) (some uid)).setFsuidUnchecked uid
  else if uid ≠ s.ruid ∧ uid ≠ s.euid ∧ uid ≠ s.suid then s
  else (s.setResuidUnchecked none (some uid) none).setFsuidUnchecked uid

/-- `should_set_suid` of `set_reuid`. -/
def shouldSetSuid (ruid euid : Option Uid) : Bool :=
  ruid.isSome || euid.any fun euid => euid != s.ruid

/-- The saved ID is stored after the capabilities have been adjusted. -/
def setReuid (ruid euid : Option Uid) : Except Error Credentials := do
  s.checkUidPerm ruid euid none false
  let t := s.setResuidUnchecked ruid euid none
  let t := if s.shouldSetSuid ruid euid then { t with suid := t.euid } else t
  pure (t.setFsuidUnchecked t.euid)

def setResuid (ruid euid suid : Option Uid) : Except Error Credentials := do
  s.checkUidPerm ruid euid suid true
  let t := s.setResuidUnchecked ruid euid suid
  pure (t.setFsuidUnchecked t.euid)

/-- The old ID is returned. A privileged thread stores the new one without `set_fsuid_unchecked`. -/
def setFsuid (fsuid : Option Uid) : Except Error (Uid × Credentials) :=
  match fsuid with
  | none => .ok (s.fsuid, s)
  | some fsuid =>
    if s.isPrivileged then .ok (s.fsuid, { s with fsuid })
    else if fsuid ≠ s.ruid ∧ fsuid ≠ s.euid ∧ fsuid ≠ s.suid then
      .error ⟨.eperm, "fsuid can only be one of old ruid, old euid and old suid."⟩
    else .ok (s.fsuid, s.setFsuidUnchecked fsuid)

/-! ### Group IDs -/

/-- For `setregid` the real ID cannot be set to the old saved one, for `setresgid` it can. -/
def checkGidPerm (rgid egid sgid : Option Gid) (rgidMayBeOldSgid : Bool) : Except Error Unit :=
  if s.isPrivileged then .ok ()
  else do
    checkOld rgid ([s.rgid, s.egid] ++ if rgidMayBeOldSgid then [s.sgid] else [])
      "rgid can only be one of old rgid, old egid (and old sgid)."
    checkOld egid [s.rgid, s.egid, s.sgid] "egid can only be one of old rgid, old egid and old sgid."
    checkOld sgid [s.rgid, s.egid, s.sgid] "sgid can only be one of old rgid, old egid and old sgid."

def setResgidUnchecked (rgid egid sgid : Option Gid) : Credentials :=
  { s with rgid := rgid.getD s.rgid, egid := egid.getD s.egid, sgid := sgid.getD s.sgid }

/-- Unlike `set_uid`, nothing is checked. -/
def setGid (gid : Gid) : Credentials :=
  if s.isPrivileged then { s with rgid := gid, egid := gid, sgid := gid, fsgid := gid }
  else { s with egid := gid, fsgid := gid }

def shouldSetSgid (rgid egid : Option Gid) : Bool :=
  rgid.isSome || egid.any fun egid => egid != s.rgid

def setRegid (rgid egid : Option Gid) : Except Error Credentials := do
  s.checkGidPerm rgid egid none false
  let t := s.setResgidUnchecked rgid egid none
  let t := if s.shouldSetSgid rgid egid then { t with sgid := t.egid } else t
  pure { t with fsgid := t.egid }

def setResgid (rgid egid sgid : Option Gid) : Except Error Credentials := do
  s.checkGidPerm rgid egid sgid true
  let t := s.setResgidUnchecked rgid egid sgid
  pure { t with fsgid := t.egid }

/-- The message is the one of `set_fsuid`, as in the source. -/
def setFsgid (fsgid : Option Gid) : Except Error (Gid × Credentials) :=
  match fsgid with
  | none => .ok (s.fsgid, s)
  | some fsgid =>
    if s.isPrivileged then .ok (s.fsgid, { s with fsgid })
    else if fsgid ≠ s.rgid ∧ fsgid ≠ s.egid ∧ fsgid ≠ s.sgid then
      .error ⟨.eperm, "fsuid can only be one of old ruid, old euid and old suid."⟩
    else .ok (s.fsgid, { s with fsgid })

end Credentials

/-! ### System calls -/

/-- `uid as u32` for an argument of a system call. -/
def Uid.ofArg (arg : Int32) : Uid := ⟨arg.toUInt32⟩

def Gid.ofArg (arg : Int32) : Gid := ⟨arg.toUInt32⟩

/-- The arguments of `setreuid` and its kind: an ID that is not positive is left unchanged, so that none of these calls
can set one to 0. -/
def givenId {Id : Type} (ofArg : Int32 → Id) (arg : Int32) : Option Id := if 0 < arg then some (ofArg arg) else none

/-- The argument of `setfsuid` and `setfsgid`. -/
def givenFsId {Id : Type} (ofArg : Int32 → Id) (arg : Int32) : Option Id := if arg < 0 then none else some (ofArg arg)

/-- The system calls that change user or group IDs, with their arguments. -/
inductive IdCall
  | setuid (uid : Int32)
  | setreuid (ruid euid : Int32)
  | setresuid (ruid euid suid : Int32)
  | setfsuid (uid : Int32)
  | setgid (gid : Int32)
  | setregid (rgid egid : Int32)
  | setresgid (rgid egid sgid : Int32)
  | setfsgid (gid : Int32)
  deriving DecidableEq

variable (s : Credentials)

/-- `sys_setuid` to `sys_setfsgid`, without the value that `setfsuid` and `setfsgid` return. -/
def sysIdCall : IdCall → Except Error Credentials
  | .setuid uid => if uid < 0 then .error ⟨.einval, "uid cannot be negative"⟩ else .ok (s.setUid (.ofArg uid))
  | .setreuid ruid euid => s.setReuid (givenId .ofArg ruid) (givenId .ofArg euid)
  | .setresuid ruid euid suid => s.setResuid (givenId .ofArg ruid) (givenId .ofArg euid) (givenId .ofArg suid)
  | .setfsuid uid => (s.setFsuid (givenFsId .ofArg uid)).map (·.2)
  | .setgid gid => if gid < 0 then .error ⟨.einval, "gid cannot be negative"⟩ else .ok (s.setGid (.ofArg gid))
  | .setregid rgid egid => s.setRegid (givenId .ofArg rgid) (givenId .ofArg egid)
  | .setresgid rgid egid sgid => s.setResgid (givenId .ofArg rgid) (givenId .ofArg egid) (givenId .ofArg sgid)
  | .setfsgid gid => (s.setFsgid (givenFsId .ofArg gid)).map (·.2)

def linuxCapabilityVersion3 : UInt32 := 0x20080522

/-- `cap_user_header_t`. -/
structure CapUserHeader where
  version : UInt32
  pid : UInt32
  deriving DecidableEq

/-- `cap_user_data_t`. -/
structure CapUserData where
  effective : BitVec 32
  permitted : BitVec 32
  inheritable : BitVec 32
  deriving DecidableEq

def makeKernelCap (low high : BitVec 32) : BitVec 64 :=
  (low.setWidth 64 ||| (high.setWidth 64 <<< 32)) &&& ((1#64 <<< (mostSignificantBit + 1)) - 1#64)

/-- The checks of `sys_capset`, up to where the data is read. -/
def checkCapset (pid : UInt32) (header : CapUserHeader) : Except Error Unit :=
  if header.version ≠ linuxCapabilityVersion3 then
    .error ⟨.einval, "not supported (capability version is not 3)"⟩
  else if header.pid ≠ 0 ∧ header.pid ≠ pid then .error ⟨.einval, "invalid pid"⟩
  else if !s.permittedCapset.contains .setpcap then .error ⟨.eperm, "permission denied"⟩
  else .ok ()

/-- `sys_capset` of a thread of process `pid`; `header` and `data` are what reading user memory returns. -/
def sysCapset (pid : UInt32) (header : Except Error CapUserHeader) (data : Except Error CapUserData) :
    Except Error Credentials := do
  let header ← header
  checkCapset s pid header
  let data ← data
  pure { s with
    inheritableCapset := .fromBitsTruncate (makeKernelCap data.inheritable 0)
    permittedCapset := .fromBitsTruncate (makeKernelCap data.permitted 0)
    effectiveCapset := .fromBitsTruncate (makeKernelCap data.effective 0) }

/-- The state a call leaves: one that fails leaves the old state. -/
def after (result : Except Error Credentials) : Credentials :=
  match result with
  | .ok s' => s'
  | .error _ => s

@[simp] theorem after_ok (s s' : Credentials) : after s (.ok s') = s' := rfl

@[simp] theorem after_error (e : Error) : after s (.error e) = s := rfl

end OmegaOsx.Credentials
