import OmegaOsx.Ext2.AllocRange
import OmegaOsx.Lib.ByteBuffer
import OmegaOsx.Lib.LittleEndian
import OmegaOsx.Lib.SortedMap

/-!
# Extended attributes

`Xattr` and `XattrCache` of `ext2/xattr.rs`, with the names of `utils/xattr.rs`. The attributes of an inode
lie in one block: the entries with the names grow from its start, the values from its end. The cache knows
where the entries and the values are; the block is read again only when the inode is loaded.

A call that returns an error keeps what it has done so far, so that the result and the state are a pair. A
value comes from user space, where reading may fault after some bytes.
-/

namespace OmegaOsx.Ext2

open ByteBuffer

inductive XattrNamespace
  | user
  | trusted
  | system
  | security
  deriving DecidableEq, Repr

namespace XattrNamespace

/-- The value as a `u8`. -/
def index : XattrNamespace → Nat
  | user => 1
  | trusted => 2
  | system => 3
  | security => 4

def tryFrom : Nat → Option XattrNamespace
  | 1 => some user
  | 2 => some trusted
  | 3 => some system
  | 4 => some security
  | _ => none

/-- What full names of the namespace start with. -/
def leading : XattrNamespace → List UInt8
  | user => "user.".toUTF8.data.toList
  | trusted => "trusted.".toUTF8.data.toList
  | system => "system.".toUTF8.data.toList
  | security => "security.".toUTF8.data.toList

def tryFromFullName (fullName : List UInt8) : Option XattrNamespace :=
  if user.leading.isPrefixOf fullName then some user
  else if trusted.leading.isPrefixOf fullName then some trusted
  else if system.leading.isPrefixOf fullName then some system
  else if security.leading.isPrefixOf fullName then some security
  else none

end XattrNamespace

/-- A name that `parse_xattr_name` has accepted. -/
structure XattrName where
  ns : XattrNamespace
  fullName : List UInt8
  parsed : XattrNamespace.tryFromFullName fullName = some ns
  short : fullName.length ≤ 255

structure XattrSetFlags where
  createOnly : Bool
  replaceOnly : Bool

/-- A reader over user space: the bytes it stands for, of which those before `readable` can be read. -/
structure VmReader where
  bytes : List UInt8
  readable : Nat

structure Error where
  errno : Errno
  msg : Option String
  deriving DecidableEq, Repr

/-- What a call returns, and the state it leaves. -/
abbrev Outcome (σ α : Type) := Except Error α × σ

/-! ### The block -/

def XATTR_HEADER_SIZE : Nat := 32

def XATTR_ENTRY_SIZE : Nat := 16

def XATTR_ALIGN : Nat := 4

def XATTR_ENTRY_VALUE_GAP : Nat := XATTR_ALIGN

/-- The size of the buffer, one block. -/
def capacityBytes : Nat := 4096

def alignUp (x align : Nat) : Nat := (x + (align - 1)) / align * align

structure XattrHeader where
  magic : Nat
  refCount : Nat
  nblocks : Nat
  hash : Nat
  reserved : List UInt8
  deriving DecidableEq

namespace XattrHeader

def EXT2_XATTR_MAGIC : Nat := 0xEA020000

def new : XattrHeader := ⟨EXT2_XATTR_MAGIC, 0, 1, 0, List.replicate 16 0⟩

def bytes (h : XattrHeader) : List UInt8 :=
  LittleEndian.toBytes 4 h.magic ++ LittleEndian.toBytes 4 h.refCount ++ LittleEndian.toBytes 4 h.nblocks ++
    LittleEndian.toBytes 4 h.hash ++ h.reserved

/-- `read_val` of a header. -/
def read (buf : Nat → UInt8) (offset : Nat) : XattrHeader :=
  { magic := LittleEndian.ofBytes (slice buf offset 4)
    refCount := LittleEndian.ofBytes (slice buf (offset + 4) 4)
    nblocks := LittleEndian.ofBytes (slice buf (offset + 8) 4)
    hash := LittleEndian.ofBytes (slice buf (offset + 12) 4)
    reserved := slice buf (offset + 16) 16 }

end XattrHeader

structure XattrEntry where
  nameLen : Nat
  nameIndex : Nat
  valueOffset : Nat
  valueBlock : Nat
  valueLen : Nat
  hash : Nat
  deriving DecidableEq, Repr

namespace XattrEntry

def targetLen (nameLen : Nat) : Nat := XATTR_ENTRY_SIZE + alignUp nameLen XATTR_ALIGN

def totalLen (e : XattrEntry) : Nat := targetLen e.nameLen

def bytes (e : XattrEntry) : List UInt8 :=
  LittleEndian.toBytes 1 e.nameLen ++ LittleEndian.toBytes 1 e.nameIndex ++ LittleEndian.toBytes 2 e.valueOffset ++
    LittleEndian.toBytes 4 e.valueBlock ++ LittleEndian.toBytes 4 e.valueLen ++ LittleEndian.toBytes 4 e.hash

/-- `read_val` of an entry. -/
def read (buf : Nat → UInt8) (offset : Nat) : XattrEntry :=
  { nameLen := LittleEndian.ofBytes (slice buf offset 1)
    nameIndex := LittleEndian.ofBytes (slice buf (offset + 1) 1)
    valueOffset := LittleEndian.ofBytes (slice buf (offset + 2) 2)
    valueBlock := LittleEndian.ofBytes (slice buf (offset + 4) 4)
    valueLen := LittleEndian.ofBytes (slice buf (offset + 8) 4)
    hash := LittleEndian.ofBytes (slice buf (offset + 12) 4) }

end XattrEntry

/-- Writes to the buffer. -/
abbrev BufM := EStateM Error (Nat → UInt8)

variable (offset : Nat)

/-- `write_val` and `write_bytes`. -/
def writeBytes (bytes : List UInt8) : BufM Unit := fun buf =>
  if capacityBytes < offset + bytes.length then .error ⟨.einval, none⟩ buf else .ok () (write buf offset bytes)

/-- `write` from a reader; what is read before a fault is written. -/
def writeFrom (reader : VmReader) : BufM Unit := fun buf =>
  if capacityBytes < offset + reader.bytes.length then .error ⟨.einval, none⟩ buf
  else if reader.readable < reader.bytes.length then
    .error ⟨.efault, none⟩ (write buf offset (reader.bytes.take reader.readable))
  else .ok () (write buf offset reader.bytes)

structure Xattr where
  blocksBuf : Nat → UInt8
  bid : Nat
  header : Option XattrHeader
  entries : SortedMap Nat XattrEntry
  /-- The lengths of the values by offset. -/
  values : SortedMap Nat Nat
  /-- The flag of `Dirty`, set when the cache is changed. -/
  dirty : Bool

namespace Xattr

def new (bid : Nat) : Xattr := ⟨fun _ => 0, bid, none, .empty, .empty, false⟩

/-- Subtraction of lengths. -/
def checkedSub (a b : Nat) : Res Nat := if a < b then panicWith "attempt to subtract with overflow" else .ok (a - b)

/-! ### The cache -/

/-- The loop of `find_entry`. -/
def findEntryIn (buf : Nat → UInt8) (name : XattrName) : List (Nat × XattrEntry) → Res (Option (Nat × XattrEntry))
  | [] => .ok none
  | (offset, entry) :: rest =>
    if entry.nameIndex = name.ns.index ∧ entry.nameLen = name.fullName.length % 2 ^ 8 then
      if capacityBytes < offset + XATTR_ENTRY_SIZE + name.fullName.length then
        panicWith "called `Result::unwrap()` on an `Err` value"
      else if slice buf (offset + XATTR_ENTRY_SIZE) name.fullName.length = name.fullName then .ok (some (offset, entry))
      else findEntryIn buf name rest
    else findEntryIn buf name rest

variable (x : Xattr) (name : XattrName)

def findEntry : Res (Option (Nat × XattrEntry)) :=
  if name.fullName.length = 0 then panicWith "assertion failed: name_len > 0"
  else findEntryIn x.blocksBuf name x.entries.entries

def lastEntryEnd : Nat := (x.entries.entries.getLast?.map fun e => e.1 + e.2.totalLen).getD XATTR_HEADER_SIZE

def firstValueStart : Nat := (x.values.entries.head?.map (·.1)).getD capacityBytes

/-- The loop over the gaps between entries. -/
def entryGap (targetLen : Nat) : Nat → List (Nat × XattrEntry) → Res (Option Nat)
  | _, [] => .ok none
  | preEnd, (offset, entry) :: rest => do
    let gap ← checkedSub offset preEnd
    if targetLen ≤ gap then pure (some preEnd) else entryGap targetLen (offset + entry.totalLen) rest

def findRoomForNewEntry (nameLen : Nat) : Res (Option Nat) := do
  let bottom ← checkedSub x.firstValueStart XATTR_ENTRY_VALUE_GAP
  let gap ← checkedSub bottom x.lastEntryEnd
  if XattrEntry.targetLen nameLen ≤ gap then pure (some x.lastEntryEnd)
  else entryGap (XattrEntry.targetLen nameLen) XATTR_HEADER_SIZE x.entries.entries

/-- The loop over the gaps between values, from the last one down. -/
def valueGap (targetLen : Nat) : Nat → List (Nat × Nat) → Res (Option Nat)
  | _, [] => .ok none
  | preEnd, (offset, valueLen) :: rest => do
    let curEnd := offset + alignUp valueLen XATTR_ALIGN
    let gap ← checkedSub preEnd curEnd
    if targetLen ≤ gap then pure (some curEnd) else valueGap targetLen offset rest

def findRoomForNewValue (valueLen : Nat) : Res (Option Nat) := do
  let gap ← checkedSub x.firstValueStart (x.lastEntryEnd + XATTR_ENTRY_VALUE_GAP)
  if alignUp valueLen XATTR_ALIGN ≤ gap then pure (some (x.firstValueStart - alignUp valueLen XATTR_ALIGN))
  else valueGap (alignUp valueLen XATTR_ALIGN) capacityBytes x.values.entries.reverse

/-- The loop of `build_entries_from_buf`. -/
def buildFrom (buf : Nat → UInt8) : Nat → Nat → SortedMap Nat XattrEntry × SortedMap Nat Nat →
    SortedMap Nat XattrEntry × SortedMap Nat Nat
  | 0, _, table => table
  | fuel + 1, offset, table =>
    if offset < capacityBytes - XATTR_ENTRY_VALUE_GAP - XATTR_ENTRY_SIZE then
      let entry := XattrEntry.read buf offset
      if entry.nameLen = 0 ∨ XattrNamespace.tryFrom entry.nameIndex = none ∨
          capacityBytes < entry.valueOffset + entry.valueLen then
        buildFrom buf fuel (offset + XATTR_ALIGN) table
      else
        buildFrom buf fuel (offset + entry.totalLen)
          (table.1.insert offset entry, table.2.insert entry.valueOffset entry.valueLen)
    else table

/-! ### The calls -/

/-- The branch of `set` for a name that is there. -/
def replace (offset : Nat) (entry : XattrEntry) (reader : VmReader) (flags : XattrSetFlags) :
    Res (Outcome Xattr Unit) :=
  if flags.createOnly then .ok (.error ⟨.eexist, some "the target xattr already exists"⟩, x)
  else if reader.bytes.length ≤ entry.valueLen then
    match writeFrom entry.valueOffset reader x.blocksBuf with
    | .error e buf => .ok (.error e, { x with blocksBuf := buf })
    | .ok _ buf =>
      if reader.bytes.length = entry.valueLen then .ok (.ok (), { x with blocksBuf := buf })
      else
        let entry := { entry with valueLen := reader.bytes.length % 2 ^ 32 }
        match writeBytes offset entry.bytes buf with
        | .error e buf => .ok (.error e, { x with blocksBuf := buf })
        | .ok _ buf =>
          .ok (.ok (), { x with
            blocksBuf := buf
            entries := x.entries.insert offset entry
            values := x.values.insert entry.valueOffset reader.bytes.length
            dirty := true })
  else do
    match ← x.findRoomForNewValue reader.bytes.length with
    | none => pure (.error ⟨.enospc, none⟩, x)
    | some newValueOffset =>
      match writeFrom newValueOffset reader x.blocksBuf with
      | .error e buf => pure (.error e, { x with blocksBuf := buf })
      | .ok _ buf =>
        let values := x.values.erase entry.valueOffset
        let entry :=
          { entry with valueOffset := newValueOffset % 2 ^ 16, valueLen := reader.bytes.length % 2 ^ 32 }
        match writeBytes offset entry.bytes buf with
        | .error e buf => pure (.error e, { x with blocksBuf := buf, values := values, dirty := true })
        | .ok _ buf =>
          pure (.ok (), { x with
            blocksBuf := buf
            entries := x.entries.insert offset entry
            values := values.insert newValueOffset reader.bytes.length
            dirty := true })

/-- The writes of a new entry, its name and its value. -/
def writeNew (entry : XattrEntry) (name : XattrName) (reader : VmReader) (valueOffset : Nat) : BufM Unit := do
  writeBytes offset entry.bytes
  writeBytes (offset + XATTR_ENTRY_SIZE) name.fullName
  writeFrom valueOffset reader

/-- The branch of `set` for a new name. -/
def create (reader : VmReader) (flags : XattrSetFlags) : Res (Outcome Xattr Unit) :=
  if flags.replaceOnly then .ok (.error ⟨.enodata, some "the target xattr does not exist"⟩, x)
  else do
    match ← x.findRoomForNewEntry name.fullName.length with
    | none => pure (.error ⟨.enospc, none⟩, x)
    | some newEntryOffset =>
      match ← x.findRoomForNewValue reader.bytes.length with
      | none => pure (.error ⟨.enospc, none⟩, x)
      | some newValueOffset =>
        let newEntry : XattrEntry :=
          { nameLen := name.fullName.length % 2 ^ 8
            nameIndex := name.ns.index
            valueOffset := newValueOffset % 2 ^ 16
            valueBlock := 0
            valueLen := reader.bytes.length % 2 ^ 32
            hash := 0 }
        match writeNew newEntryOffset newEntry name reader newValueOffset x.blocksBuf with
        | .error e buf => pure (.error e, { x with blocksBuf := buf })
        | .ok _ buf =>
          pure (.ok (), { x with
            blocksBuf := buf
            entries := x.entries.insert newEntryOffset newEntry
            values := x.values.insert newValueOffset reader.bytes.length
            dirty := true })

/-- `set` after `lazy_init`. -/
def setLoaded (reader : VmReader) (flags : XattrSetFlags) : Res (Outcome Xattr Unit) := do
  match ← x.findEntry name with
  | some (offset, entry) => x.replace offset entry reader flags
  | none => x.create name reader flags

/-- A writer to user space: the room it has, of which the part before `writable` can be written. -/
structure VmWriter where
  avail : Nat
  writable : Nat

/-- `get` after `lazy_init`; it returns the length and the bytes that are written. -/
def getLoaded (writer : VmWriter) : Res (Outcome Xattr (Nat × List UInt8)) := do
  match ← x.findEntry name with
  | none => pure (.error ⟨.enodata, none⟩, x)
  | some (_, entry) =>
    if writer.avail = 0 then pure (.ok (entry.valueLen, []), x)
    else if writer.avail < entry.valueLen then
      pure (.error ⟨.erange, some "the xattr value buffer is too small"⟩, x)
    else if capacityBytes < entry.valueOffset then panicWith "assertion failed: nbytes <= self.remain()"
    else
      let len := min entry.valueLen (capacityBytes - entry.valueOffset)
      if writer.writable < len then pure (.error ⟨.efault, none⟩, x)
      else pure (.ok (entry.valueLen, slice x.blocksBuf entry.valueOffset len), x)

/-- `remove` after `lazy_init`. -/
def removeLoaded : Res (Outcome Xattr Unit) := do
  match ← x.findEntry name with
  | none => pure (.error ⟨.enodata, some "the target xattr does not exist"⟩, x)
  | some (offset, entry) =>
    if capacityBytes < offset then panicWith "assertion failed: nbytes <= self.avail()"
    else
      let len := min entry.totalLen (capacityBytes - offset)
      pure (.ok (), { x with
        blocksBuf := write x.blocksBuf offset (List.replicate len 0)
        entries := x.entries.erase offset
        values := x.values.erase entry.valueOffset
        dirty := true })

/-! ### Loading and storing -/

/-- What an inode sees of the file system and its device. -/
structure Device where
  fs : Ext2
  blocks : Nat → Nat → UInt8

/-- `lazy_init`; `group` is the block group of the inode. -/
def lazyInit (group : Nat) (dev : Device) (x : Xattr) : Res (Outcome (Device × Xattr) Unit) :=
  if x.bid = 0 then do
    require (x.header = none) "assertion failed: cache.header.is_none()"
    let (range, fs) ← dev.fs.allocBlocks group 1
    match range with
    | none => pure (.error ⟨.enospc, none⟩, { dev with fs }, x)
    | some (start, _) =>
      pure (.ok (), { dev with fs }, { x with
        blocksBuf := write x.blocksBuf 0 XattrHeader.new.bytes
        header := some XattrHeader.new
        bid := start
        dirty := true })
  else if x.header = none then
    let buf := dev.blocks x.bid
    if (XattrHeader.read buf 0).magic ≠ XattrHeader.EXT2_XATTR_MAGIC then
      .ok (.error ⟨.einval, some "invalid xattr magic"⟩, dev, { x with blocksBuf := buf })
    else
      let table := buildFrom buf capacityBytes XATTR_HEADER_SIZE (x.entries, x.values)
      .ok (.ok (), dev, { x with
        blocksBuf := buf
        header := some (XattrHeader.read buf 0)
        entries := table.1
        values := table.2
        dirty := true })
  else .ok (.ok (), dev, x)

/-- A call, which loads or creates the block first. -/
def afterInit {α : Type} (f : Xattr → Res (Outcome Xattr α)) (group : Nat) (dev : Device) (x : Xattr) :
    Res (Outcome (Device × Xattr) α) := do
  let (init, dev, x) ← lazyInit group dev x
  match init with
  | .error e => pure (.error e, dev, x)
  | .ok _ =>
    let (result, x) ← f x
    pure (result, dev, x)

def set (reader : VmReader) (flags : XattrSetFlags) : Nat → Device → Xattr →
    Res (Outcome (Device × Xattr) Unit) :=
  afterInit fun x => x.setLoaded name reader flags

def get (writer : VmWriter) : Nat → Device → Xattr → Res (Outcome (Device × Xattr) (Nat × List UInt8)) :=
  afterInit fun x => x.getLoaded name writer

def remove : Nat → Device → Xattr → Res (Outcome (Device × Xattr) Unit) :=
  afterInit fun x => x.removeLoaded name

def flush (dev : Device) (x : Xattr) : Device × Xattr :=
  if x.dirty then ({ dev with blocks := Function.update dev.blocks x.bid x.blocksBuf }, { x with dirty := false })
  else (dev, x)

/-- `free`, which frees the empty range `bid..bid`. -/
def free (dev : Device) (x : Xattr) : Res (Outcome (Device × Xattr) Unit) :=
  if x.bid = 0 then .ok (.ok (), dev, x)
  else do
    let (result, fs) ← dev.fs.freeBlocks x.bid x.bid
    match result with
    | .error errno => pure (.error ⟨errno, none⟩, { dev with fs }, x)
    | .ok _ => pure (.ok (), { dev with fs }, { x with bid := 0, dirty := true })

end Xattr

end OmegaOsx.Ext2
