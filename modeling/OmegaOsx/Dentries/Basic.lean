import Mathlib.Logic.Function.Basic

/-!
# Dentries

`Dentry` of `fs/path/dentry.rs` with its cache of children, over an inode layer. Dentries live in a heap, a pointer to
one is a number. An inode is its identity; what type it has and whether its dentries may be cached does not change.
-/

namespace OmegaOsx.Dentries

inductive Errno
  | ebusy
  | eexist
  | eisdir
  | enoent
  | enotdir
  /-- Whatever else the inode layer answers. -/
  | other (code : Nat)
  deriving DecidableEq, Repr

/-! ### The inode layer -/

/-- The names of each directory. A call that is refused leaves them as they are. -/
structure Fs where
  entries : Nat → String → Option Nat
  isDir : Nat → Bool
  cacheable : Nat → Bool

namespace Fs

variable (fs : Fs)

def set (dir : Nat) (name : String) (inode : Option Nat) : Fs :=
  { fs with entries := Function.update fs.entries dir (Function.update (fs.entries dir) name inode) }

variable (refusal : Option Nat)

def lookup (dir : Nat) (name : String) : Except Errno Nat :=
  match refusal with
  | some code => .error (.other code)
  | none =>
    if !fs.isDir dir then .error .enotdir
    else
      match fs.entries dir name with
      | some inode => .ok inode
      | none => .error .enoent

def create (dir : Nat) (name : String) (new : Nat) : Except Errno Fs :=
  match refusal with
  | some code => .error (.other code)
  | none => if fs.entries dir name ≠ none then .error .eexist else .ok (fs.set dir name (some new))

/-- There are no hard links to directories. -/
def link (dir old : Nat) (name : String) : Except Errno Fs :=
  if fs.isDir old then .error (.other 1) else fs.create refusal dir name old

/-- `unlink` and `rmdir`; `wanted` tells whether a directory is to be removed. -/
def remove (wanted : Bool) (refusal : Option Nat) (dir : Nat) (name : String) : Except Errno Fs :=
  match refusal, fs.entries dir name with
  | some code, _ => .error (.other code)
  | none, none => .error .enoent
  | none, some inode =>
    if fs.isDir inode ≠ wanted then .error (if wanted then .enotdir else .eisdir) else .ok (fs.set dir name none)

/-- Renaming one hard link of an inode onto another does nothing. -/
def rename (dir : Nat) (old : String) (newDir : Nat) (new : String) : Except Errno Fs :=
  match refusal, fs.entries dir old with
  | some code, _ => .error (.other code)
  | none, none => .error .enoent
  | none, some inode =>
    if fs.entries newDir new = some inode then .ok fs else .ok ((fs.set dir old none).set newDir new (some inode))

end Fs

/-! ### `DentryChildren` -/

/-- `Some(None)` is a negative entry. -/
abbrev Children := String → Option (Option Nat)

namespace Children

variable (c : Children) (name : String)

def containsValid : Bool :=
  match c name with
  | some (some _) => true
  | _ => false

def find : Except Errno (Option Nat) :=
  match c name with
  | some (some child) => .ok (some child)
  | some none => .error .enoent
  | none => .ok none

def insert (child : Nat) : Children := Function.update c name (some (some child))

def insertNegative : Children := Function.update c name (some none)

/-- What is left of an entry that is deleted: a negative one, if there is one at all. -/
def taken : Option (Option Nat) → Option (Option Nat)
  | some _ => some none
  | none => none

def delete : Children := Function.update c name (taken (c name))

/-- `mounted` tells which dentries are mountpoints at the time of the call. -/
def checkMountpoint (mounted : Nat → Bool) (name : String) : Except Errno Unit :=
  match c name with
  | some (some child) => if mounted child then .error .ebusy else .ok ()
  | _ => .ok ()

end Children

/-! ### `Dentry` -/

structure Dentry where
  inode : Nat
  children : Children

structure State where
  fs : Fs
  dentries : Nat → Dentry
  next : Nat

namespace State

def inode (s : State) (d : Nat) : Nat := (s.dentries d).inode

def children (s : State) (d : Nat) : Children := (s.dentries d).children

variable (s : State) (d : Nat)

def setChildren (children : Children) : State :=
  { s with dentries := Function.update s.dentries d { s.dentries d with children } }

/-- `Dentry::new`, at the address `next`. -/
def alloc (inode : Nat) : State :=
  { s with dentries := Function.update s.dentries s.next ⟨inode, fun _ => none⟩, next := s.next + 1 }

variable (name : String)

def insertIfCacheable (child : Nat) : State :=
  if s.fs.cacheable (s.inode child) then s.setChildren d ((s.children d).insert name child) else s

/-- What `create` and `link` have in common; `call` is that of the inode layer. -/
def add (inode : Nat) (call : Except Errno Fs) : Except Errno Nat × State :=
  if !s.fs.isDir (s.inode d) then (.error .enotdir, s)
  else if (s.children d).containsValid name then (.error .eexist, s)
  else
    match call with
    | .error e => (.error e, s)
    | .ok fs => (.ok s.next, (({ s with fs }).alloc inode).insertIfCacheable d name s.next)

def create (s : State) (d : Nat) (name : String) (new : Nat) (refusal : Option Nat) : Except Errno Nat × State :=
  s.add d name new (s.fs.create refusal (s.inode d) name new)

def link (s : State) (d old : Nat) (name : String) (refusal : Option Nat) : Except Errno Nat × State :=
  s.add d name (s.inode old) (s.fs.link refusal (s.inode d) (s.inode old) name)

def lookupViaCache : Except Errno (Option Nat) := (s.children d).find name

def lookupViaFs (refusal : Option Nat) : Except Errno Nat × State :=
  match s.fs.lookup refusal (s.inode d) name with
  | .error e =>
    (.error e, if e = .enoent ∧
    s.fs.cacheable (s.inode d) then s.setChildren d ((s.children d).insertNegative name) else s)
  | .ok inode => (.ok s.next, (s.alloc inode).insertIfCacheable d name s.next)

/-- A lookup asks the cache first. -/
def lookup (refusal : Option Nat) : Except Errno Nat × State :=
  match s.lookupViaCache d name with
  | .error e => (.error e, s)
  | .ok (some child) => (.ok child, s)
  | .ok none => s.lookupViaFs d name refusal

/-- What `unlink` and `rmdir` have in common. -/
def remove (s : State) (wanted : Bool) (mounted : Nat → Bool) (d : Nat) (name : String) (refusal : Option Nat) :
    Except Errno Unit × State :=
  if !s.fs.isDir (s.inode d) then (.error .enotdir, s)
  else
    match (s.children d).checkMountpoint mounted name, s.fs.remove wanted refusal (s.inode d) name with
    | .error e, _ => (.error e, s)
    | .ok _, .error e => (.error e, s)
    | .ok _, .ok fs => (.ok (), ({ s with fs }).setChildren d ((s.children d).delete name))

variable (mounted : Nat → Bool)

def unlink (d : Nat) (name : String) (refusal : Option Nat) :
    Except Errno Unit × State := s.remove false mounted d name refusal

def rmdir (d : Nat) (name : String) (refusal : Option Nat) :
    Except Errno Unit × State := s.remove true mounted d name refusal

/-- The end of `rename`, for one dentry and for two: the cached child moves, or the new name is dropped. -/
def renameCached (old : String) (newDir : Nat) (new : String) (child : Option Nat) : State :=
  match child with
  | some child => (s.setChildren d ((s.children d).delete old)).insertIfCacheable newDir new child
  | none => s.setChildren newDir ((s.children newDir).delete new)

/-- The checks before the inode is renamed; the cached child of the old name. -/
def checkRename (d : Nat) (old : String) (newDir : Nat) (new : String) : Except Errno (Option Nat) := do
  (s.children d).checkMountpoint mounted old
  let child ← (s.children d).find old
  (s.children newDir).checkMountpoint mounted new
  pure child

def isDotOrDotdot : Bool := name == "." || name == ".."

def rename (s : State) (mounted : Nat → Bool) (d : Nat) (old : String) (newDir : Nat) (new : String)
    (refusal : Option Nat) : Except Errno Unit × State :=
  if isDotOrDotdot old || isDotOrDotdot new then (.error .eisdir, s)
  else if !(s.fs.isDir (s.inode d) && s.fs.isDir (s.inode newDir)) then (.error .enotdir, s)
  else if d = newDir ∧ old = new then (.ok (), s)
  else
    match s.checkRename mounted d old newDir new, s.fs.rename refusal (s.inode d) old (s.inode newDir) new with
    | .error e, _ => (.error e, s)
    | .ok _, .error e => (.error e, s)
    | .ok child, .ok fs => (.ok (), ({ s with fs }).renameCached d old newDir new child)

end State

end OmegaOsx.Dentries
