import Mathlib.Data.BitVec

/-!
# Inode descriptors on the device

The conversions between `InodeDesc` and `RawInode`. One field of a raw inode is the upper half of a file's size or the
attribute block of a directory; only the latter is ever written. Raw fields that stay at their default are left out.
-/

namespace OmegaOsx.Ext2

inductive InodeType
  | unknown | namedPipe | charDevice | dir | blockDevice | file | symLink | socket
  deriving DecidableEq

namespace InodeType

def toRaw : InodeType → BitVec 16
  | unknown => 0
  | namedPipe => 0o010000
  | charDevice => 0o020000
  | dir => 0o040000
  | blockDevice => 0o060000
  | file => 0o100000
  | symLink => 0o120000
  | socket => 0o140000

def fromRawMode (mode : BitVec 16) : Except String InodeType :=
  let mode := mode &&& 0o170000
  if mode = 0 then .ok file
  else match [namedPipe, charDevice, dir, blockDevice, file, symLink, socket].find? (·.toRaw = mode) with
    | some type_ => .ok type_
    | none => .error "invalid file type"

end InodeType

/-- The flags with a name. -/
def allFlags : BitVec 32 := 0x8003ffff

/-- Times are in nanoseconds; permissions have a name for each of their bits. -/
structure InodeDesc where
  type_ : InodeType
  perm : BitVec 12
  (uid gid : BitVec 32)
  size : BitVec 64
  (atime ctime mtime dtime : Nat)
  hardLinks : BitVec 16
  blocksCount : BitVec 32
  flags : { bits : BitVec 32 // bits &&& allFlags = bits }
  blockPtrs : Vector (BitVec 32) 15
  acl : Option (BitVec 64)

structure RawInode where
  (mode uid gid hardLinks uidHigh gidHigh : BitVec 16)
  (sizeLow atime ctime mtime dtime blocksCount flags fileAcl sizeHigh : BitVec 32)
  blockPtrs : Vector (BitVec 32) 15

/-- `UnixTime::from`. -/
def unixTime (duration : Nat) : BitVec 32 := .ofNat 32 (duration / 10 ^ 9)

/-- `Duration::from`. -/
def duration (time : BitVec 32) : Nat := time.toNat * 10 ^ 9

def joinHalves (high low : BitVec 16) : BitVec 32 := high.setWidth 32 <<< 16 ||| low.setWidth 32

def RawInode.toDesc (inode : RawInode) : Except String InodeDesc := do
  let type_ ← InodeType.fromRawMode inode.mode
  if known : inode.flags &&& allFlags = inode.flags then
    pure { type_, perm := inode.mode.setWidth 12, uid := joinHalves inode.uidHigh inode.uid,
           gid := joinHalves inode.gidHigh inode.gid,
           size := if type_ = .file then inode.sizeHigh.setWidth 64 <<< 32 ||| inode.sizeLow.setWidth 64
             else inode.sizeLow.setWidth 64,
           atime := duration inode.atime, ctime := duration inode.ctime, mtime := duration inode.mtime,
           dtime := duration inode.dtime, hardLinks := inode.hardLinks, blocksCount := inode.blocksCount,
           flags := ⟨inode.flags, known⟩, blockPtrs := inode.blockPtrs,
           acl := match type_ with
             | .file => some (inode.fileAcl.setWidth 64)
             | .dir => some (inode.sizeHigh.setWidth 64)
             | _ => none }
  else .error "invalid file flags"

namespace InodeDesc

variable (inode : InodeDesc)

/-- The attribute block of an inode of the given type. -/
def aclFor (type_ : InodeType) : BitVec 32 :=
  match inode.acl with
  | some acl => if inode.type_ = type_ then acl.setWidth 32 else 0
  | none => 0

@[simps] def toRaw : RawInode where
  mode := inode.type_.toRaw ||| inode.perm.setWidth 16
  uid := inode.uid.setWidth 16
  sizeLow := inode.size.setWidth 32
  atime := unixTime inode.atime
  ctime := unixTime inode.ctime
  mtime := unixTime inode.mtime
  dtime := unixTime inode.dtime
  gid := inode.gid.setWidth 16
  hardLinks := inode.hardLinks
  blocksCount := inode.blocksCount
  flags := inode.flags
  blockPtrs := inode.blockPtrs
  fileAcl := inode.aclFor .file
  sizeHigh := inode.aclFor .dir
  uidHigh := (inode.uid >>> 16).setWidth 16
  gidHigh := (inode.gid >>> 16).setWidth 16

/-- Read back with all but the times. -/
def RoundTrips : Prop := ∃ back, inode.toRaw.toDesc = .ok back ∧
  { back with atime := inode.atime, ctime := inode.ctime, mtime := inode.mtime, dtime := inode.dtime } = inode

/-- Files and directories have an attribute block, whose number has 32 bits. -/
def AclFits : Prop :=
  if inode.type_ = .file ∨ inode.type_ = .dir then ∃ acl, inode.acl = some acl ∧ acl.toNat < 2 ^ 32
  else inode.acl = none

theorem joinHalves_halves (id : BitVec 32) : joinHalves ((id >>> 16).setWidth 16) (id.setWidth 16) = id := by
  unfold joinHalves
  ext i lt
  by_cases low : i < 16
  · simp [low, BitVec.getLsbD_eq_getElem lt]
  · simp [low, show i - 16 < 16 by omega, show 16 + (i - 16) = i by omega, BitVec.getLsbD_eq_getElem lt]

theorem setWidth_setWidth_eq_iff {x : BitVec 64} : (x.setWidth 32).setWidth 64 = x ↔ x.toNat < 2 ^ 32 := by
  rw [← BitVec.toNat_inj]
  simp
  omega

theorem perm_and_typeMask : ∀ perm : BitVec 12, perm.setWidth 16 &&& 0o170000 = 0 := by decide +kernel

theorem fromRawMode_mode : InodeType.fromRawMode inode.toRaw.mode =
    .ok (if inode.type_ = .unknown then .file else inode.type_) := by
  unfold InodeType.fromRawMode toRaw
  rw [BitVec.and_or_distrib_right, perm_and_typeMask]
  cases inode.type_ <;> rfl

theorem setWidth_mode : inode.toRaw.mode.setWidth 12 = inode.perm := by
  have apart : inode.type_.toRaw.setWidth 12 = 0#12 := by cases inode.type_ <;> rfl
  rw [toRaw, BitVec.setWidth_or, apart, BitVec.setWidth_setWidth_of_le _ (by decide),
    BitVec.setWidth_eq, BitVec.zero_or]

theorem toDesc_toRaw_iff : inode.RoundTrips ↔ inode.type_ ≠ .unknown ∧ inode.size.toNat < 2 ^ 32 ∧
    inode.AclFits := by
  have sameFlags : inode.toRaw.flags &&& allFlags = inode.toRaw.flags := inode.flags.2
  unfold RoundTrips RawInode.toDesc
  simp only [fromRawMode_mode, setWidth_mode, bind, Except.bind, pure, Except.pure, sameFlags, dite_true,
    Except.ok.injEq, exists_eq_left']
  obtain ⟨type_, _, _, _, size, _, _, _, _, _, _, _, _, acl⟩ := inode
  simp only [mk.injEq]
  cases type_ <;> cases acl <;> simp [joinHalves_halves, setWidth_setWidth_eq_iff, aclFor, AclFits]

/-- A file of four gigabytes is empty when it is read back. -/
theorem upper_half_lost :
    (toRaw ⟨.file, 0, 0, 0, 2 ^ 32, 0, 0, 0, 0, 1, 0, ⟨0, rfl⟩, .replicate 15 0, some 0⟩).toDesc.map
    size = .ok 0 := by
  decide +kernel

end InodeDesc

end OmegaOsx.Ext2
