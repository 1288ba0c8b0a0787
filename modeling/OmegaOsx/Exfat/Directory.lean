import OmegaOsx.Exfat.Chain
import OmegaOsx.Lib.Keeps
import OmegaOsx.MlsDisk.Stateful

/-!
# Directories

The inodes of a volume, as `inode.rs` keeps them, and the functions on directories that `rename` is
made of: `lookup_by_name`, `find_empty_dentries`, `add_entry`, `delete_inode`.

A directory is the list of its dentries of 32 bytes. The dentry of a file or directory is the first of
its dentry set; it stands for the inode that lookup finds there, cached or read from the set. Sets on
disk are well formed, without dentries that have clusters of their own (which `delete_inode` would
free), and there are no I/O failures; the clock may be out of range. An operation that fails keeps what
it has done so far.
-/

namespace OmegaOsx.Exfat

inductive Dentry
  | unused
  | deleted
  /-- The file dentry of a set, and the inode it stands for. -/
  | file (ino : Nat)
  /-- A stream, name or other secondary dentry. -/
  | secondary
  /-- Any other primary dentry: the bitmap, the upcase table. -/
  | primary
  deriving DecidableEq, Repr

def DENTRY_SIZE : Nat := 32

def MAX_NAME_LENGTH : Nat := 255

def EXFAT_FILE_NAME_LEN : Nat := 15

def EXFAT_MAX_DENTRIES : Nat := 8388608

inductive InodeType
  | file
  | dir
  deriving DecidableEq, Repr

structure ExfatInode where
  inodeType : InodeType
  name : String
  /-- The entry number of the dentry set in the parent directory. -/
  dentryEntry : Nat
  /-- `dentry_set_size`, in dentries. -/
  numDentries : Nat
  startChain : ExfatChain
  numSubInodes : Nat
  numSubDirs : Nat
  isDeleted : Bool
  /-- What a directory holds. -/
  dentries : List Dentry

/-- The inodes by their numbers. -/
structure Tree where
  fs : ExfatFs
  inodes : Nat → ExfatInode
  nextIno : Nat
  /-- Whether the clock reads a time that `DosTimestamp` can hold. -/
  clockValid : Bool
  /-- `str::to_uppercase`. -/
  toUppercase : String → String

abbrev Act (α : Type) := EStateM Fault Tree α

def raise {α : Type} (errno : Errno) (msg : String) : Act α := throw (.errno errno msg)

def crash {α : Type} (msg : String) : Act α := throw (.panic msg)

def liftRes {α : Type} : Res α → Act α
  | .ok a => pure a
  | .error e => throw e

def onlyIf (c : Prop) [Decidable c] (act : Act Unit) : Act Unit := if c then act else pure ()

def Tree.setInode (t : Tree) (ino : Nat) (f : ExfatInode → ExfatInode) : Tree :=
  { t with inodes := Function.update t.inodes ino (f (t.inodes ino)) }

def updateInode (ino : Nat) (f : ExfatInode → ExfatInode) : Act Unit := modify (·.setInode ino f)

/-! ### Looking up -/

/-- The loop of `visit_sub_inodes`, at entry `entry` and with `skip` dentries of a set still to pass: the
names, entries and inodes of the next `count` files. -/
def visit (t : Tree) : List Dentry → Nat → Nat → Nat → Res (List (String × Nat × Nat))
  | _, _, _, 0 => .ok []
  | [], _, _, _ + 1 => fail .enoent "inode data not available"
  | _ :: rest, entry, skip + 1, count + 1 => visit t rest (entry + 1) skip (count + 1)
  | .file ino :: rest, entry, 0, count + 1 => do
    let child := t.inodes ino
    let others ← visit t rest (entry + 1) (child.numDentries - 1) count
    pure ((child.name, entry, ino) :: others)
  | _ :: rest, entry, 0, count + 1 => visit t rest (entry + 1) 0 (count + 1)

def visitSubInodes (t : Tree) (dir : Nat) (dirCnt : Nat) : Res (List (String × Nat × Nat)) :=
  if (t.inodes dir).inodeType ≠ .dir then fail .enotdir ""
  else visit t (t.inodes dir).dentries 0 0 dirCnt

def lookupByName (t : Tree) (dir : Nat) (targetName : String) (caseSensitive : Bool) : Res Nat := do
  let fold := if caseSensitive then id else t.toUppercase
  let found ← visitSubInodes t dir (t.inodes dir).numSubInodes
  match found.find? (fun (name, _, _) => fold name == fold targetName) with
  | some (_, _, ino) => pure ino
  | none => fail .enoent ""

/-! ### Names -/

/-- `str::encode_utf16`. -/
def encodeUtf16 (name : String) : List Nat :=
  name.toList.flatMap fun c =>
    if c.toNat < 0x10000 then [c.toNat]
    else [0xD800 + (c.toNat - 0x10000) / 0x400, 0xDC00 + (c.toNat - 0x10000) % 0x400]

def isValidChar (value : Nat) : Bool :=
  !(value < 0x20 || [0x22, 0x2A, 0x2F, 0x3A, 0x3C, 0x3E, 0x3F, 0x5C, 0x7C].contains value)

/-- `ExfatDentrySet::from`: the number of dentries of the set of a new file. -/
def dentrySetFrom (clockValid : Bool) (name : String) : Res Nat := do
  let units := encodeUtf16 name
  if units.any (! isValidChar ·) then fail .einval "invalid file name."
  else if clockValid = false then fail .einval "failed to parse date time."
  else
    let nameDentries := (units.length + (EXFAT_FILE_NAME_LEN - 1)) / EXFAT_FILE_NAME_LEN
    if MAX_NAME_LENGTH / EXFAT_FILE_NAME_LEN < nameDentries then fail .einval "invalid dentry state machine"
    else if nameDentries = 0 then fail .einval "dentries not enough"
    else pure (nameDentries + 2)

/-! ### Adding -/

def isFree : Dentry → Bool
  | .unused => true
  | .deleted => true
  | _ => false

/-- The loop of `find_empty_dentries`; `none` if it comes to the end. -/
def findRun (numDentries : Nat) : List Dentry → Nat → Nat → Option Nat
  | [], _, _ => none
  | dentry :: rest, entryId, contiguousUnused =>
    let contiguousUnused := if isFree dentry then contiguousUnused + 1 else 0
    if numDentries ≤ contiguousUnused then some (entryId - (numDentries - 1))
    else findRun numDentries rest (entryId + 1) contiguousUnused

def findEmptyDentries (dir : Nat) (numDentries : Nat) : Act Nat := do
  let t ← get
  let inner := t.inodes dir
  match findRun numDentries inner.dentries 0 0 with
  | some entry => pure entry
  | none =>
    if EXFAT_MAX_DENTRIES ≤ inner.dentries.length then raise .enospc ""
    else do
      let clusterSize := t.fs.superBlock.clusterSize
      let clusters := (numDentries * DENTRY_SIZE + (clusterSize - 1)) / clusterSize
      let (fs, chain, _) ← liftRes (inner.startChain.extendClusters t.fs clusters)
      modify ({ · with fs })
      updateInode dir fun inner =>
        { inner with
          startChain := chain
          dentries := inner.dentries ++ List.replicate (clusterSize * clusters / DENTRY_SIZE) .unused }
      pure inner.dentries.length

/-- Writes a dentry set of `count` dentries. -/
def writeSet (dentries : List Dentry) (entry count ino : Nat) : List Dentry :=
  dentries.mapIdx fun i dentry =>
    if i = entry then .file ino else if entry < i ∧ i < entry + count then .secondary else dentry

/-- The inode that `build_from_dentry_set` makes of a new set. -/
def newInode (name : String) (inodeType : InodeType) (entry count : Nat) : ExfatInode where
  inodeType := inodeType
  name := name
  dentryEntry := entry
  numDentries := count
  startChain := ⟨0, 0, FAT_CHAIN_NOT_IN_USE⟩
  numSubInodes := 0
  numSubDirs := 0
  isDeleted := false
  dentries := []

/-- The end of `add_entry`: writes the set of the inode that is made next. -/
def addSet (dir : Nat) (name : String) (inodeType : InodeType) (entry count ino : Nat) : Act Nat := do
  modify ({ · with nextIno := ino + 1 })
  updateInode ino fun _ => newInode name inodeType entry count
  updateInode dir fun inner =>
    { inner with
      dentries := writeSet inner.dentries entry count ino
      numSubInodes := inner.numSubInodes + 1
      numSubDirs := inner.numSubDirs + (if inodeType = .dir then 1 else 0) }
  let t ← get
  let _ ← liftRes ((t.inodes dir).startChain.walkToClusterAtOffset t.fs (entry * DENTRY_SIZE))
  pure ino

/-- `add_entry`: the number of the new inode. -/
def addEntry (dir : Nat) (name : String) (inodeType : InodeType) : Act Nat := do
  if MAX_NAME_LENGTH < name.utf8ByteSize then raise .enametoolong ""
  else do
    let numDentries := (name.utf8ByteSize + (EXFAT_FILE_NAME_LEN - 1)) / EXFAT_FILE_NAME_LEN + 2
    let entry ← findEmptyDentries dir numDentries
    let t ← get
    let count ← liftRes (dentrySetFrom t.clockValid name)
    addSet dir name inodeType entry count t.nextIno

/-! ### Deleting -/

/-- Clears the highest bit of the type of a dentry. -/
def markDeleted : Dentry → Dentry
  | .unused => .unused
  | _ => .deleted

/-- `delete_dentry_set`. -/
def deleteSet (dentries : List Dentry) (entry count : Nat) : List Dentry :=
  dentries.mapIdx fun i dentry => if entry ≤ i ∧ i < entry + count then markDeleted dentry else dentry

/-- `resize(0)` of a directory. -/
def resizeToZero (ino : Nat) : Act Unit := do
  let t ← get
  let chain := (t.inodes ino).startChain
  onlyIf (0 < chain.numClusters) do
    let (fs, chain) ← liftRes (chain.removeClustersFromTail t.fs chain.numClusters)
    modify ({ · with fs })
    updateInode ino fun inner => { inner with startChain := chain }
  updateInode ino fun inner => { inner with dentries := [] }

/-- The part of `delete_inode` for the contents. -/
def deleteContents (ino : Nat) : Act Unit := do
  let t ← get
  onlyIf ((t.inodes ino).inodeType = .dir) (resizeToZero ino)
  updateInode ino fun inner => { inner with isDeleted := true }

/-- `delete_inode`, in the directory `dir`. -/
def deleteInode (dir ino : Nat) (contents : Bool) : Act Unit := do
  let isDir := ((← get).inodes ino).inodeType = .dir
  onlyIf contents (deleteContents ino)
  let inode := (← get).inodes ino
  updateInode dir fun inner =>
    { inner with dentries := deleteSet inner.dentries inode.dentryEntry inode.numDentries }
  let inner := (← get).inodes dir
  if inner.numSubInodes < 1 ∨ isDir ∧ inner.numSubDirs < 1 then crash "attempt to subtract with overflow"
  else
    updateInode dir fun inner =>
      { inner with
        numSubInodes := inner.numSubInodes - 1
        numSubDirs := inner.numSubDirs - (if isDir then 1 else 0) }

end OmegaOsx.Exfat
