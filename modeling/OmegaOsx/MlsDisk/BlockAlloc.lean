import OmegaOsx.MlsDisk.BitMap
import OmegaOsx.Lib.SortedMap
import OmegaOsx.Lib.LittleEndian
import OmegaOsx.Lib.Run

/-!
# The allocation table of the data disk

`AllocTable` says which host blocks are free, in a bitmap and a counter. A write takes blocks from it
at once; a transaction of the tree collects the blocks whose records it adds or drops in a diff table,
logs that table when it commits, and then gives the dropped blocks back. A compaction replaces all of
these logs by the bitmap itself.

The two buckets of the log store are the lists of the contents of their logs, older first; a log that
is created later has the larger ID. The condition variable is left out: a caller that finds too few
free blocks waits, so its call goes on in a state with enough of them. The serialiser of bitmaps is
code outside the crate and a parameter.
-/

namespace OmegaOsx.MlsDisk

/-- Host block address. -/
abbrev Hba := Nat

inductive AllocDiff
  | alloc
  | dealloc
  | invalid
  deriving DecidableEq, Repr

namespace AllocDiff

def toByte : AllocDiff → UInt8
  | alloc => 3
  | dealloc => 7
  | invalid => 8

def ofByte : UInt8 → AllocDiff
  | 3 => alloc
  | 7 => dealloc
  | _ => invalid

end AllocDiff

def diffRecordSize : Nat := 1 + 8

/-- `MAX_BUF_SIZE` of the diff log. -/
@[irreducible] def maxDiffBufSize : Nat := 1024 * blockSize

@[irreducible] def bitmapMaxSize : Nat := 1792 * blockSize

/-- `postcard` on bitmaps. -/
structure BitMapCodec where
  toSlice : BitMap → Bytes
  fromBytes : Bytes → Option BitMap

variable (codec : BitMapCodec)

/-- Reading back what was written ignores the bytes behind it. -/
def BitMapCodec.Lawful : Prop :=
  ∀ bm n, codec.fromBytes (codec.toSlice bm ++ List.replicate n 0) = some bm

/-- The logs of the buckets `BVT` and `BAL`. -/
structure AllocLogs where
  bvt : List Bytes
  bal : List Bytes
  deriving DecidableEq

structure AllocTable where
  /-- A one bit is a free block. -/
  bitmap : BitMap
  nextAvail : Nat
  nblocks : Nat
  isDirty : Bool
  numFree : Nat
  deriving DecidableEq

namespace AllocTable

def new (nblocks : Nat) : AllocTable where
  bitmap := List.replicate nblocks true
  nextAvail := 0
  nblocks
  isDirty := false
  numFree := nblocks

/-! ### Taking and giving back -/

variable (t : AllocTable)

/-- Clears the bits of the blocks found and moves on behind the last of them. -/
def takeBlocks (hbas : List Hba) : Res (List Hba × AllocTable) := do
  let bitmap ← hbas.foldlM (fun bm hba => bm.setBit hba false) t.bitmap
  match hbas.getLast? with
  | none => panicWith "called `Option::unwrap()` on a `None` value"
  | some last => .ok (hbas, { t with bitmap, nextAvail := last + 1 })

/-- The second attempt: from the first free block on. -/
def allocFromStart (count : Nat) : Res (Option (List Hba × AllocTable)) := do
  match ← t.bitmap.firstOne 0 with
  | none => .ok none
  | some nextAvail =>
    match ← t.bitmap.firstOnes nextAvail count with
    | none => .ok none
    | some hbas => some <$> t.takeBlocks hbas

/-- From `nextAvail` on, and from the start if that finds too few. -/
def allocFrom (nextAvail count : Nat) : Res (Option (List Hba × AllocTable)) := do
  match ← t.bitmap.firstOnes nextAvail count with
  | some hbas => some <$> t.takeBlocks hbas
  | none => t.allocFromStart count

def doAllocBatch (count : Nat) : Res (Option (List Hba × AllocTable)) :=
  if t.nextAvail + count > t.nblocks then do
    match ← t.bitmap.firstOne 0 with
    | none => .ok none
    | some nextAvail => t.allocFrom nextAvail count
  else t.allocFrom t.nextAvail count

/-- From behind the loop that waits for `count` free blocks. -/
def allocBatch (count : Nat) : Res (List Hba × AllocTable) := do
  match ← t.doAllocBatch count with
  | none => panicWith "called `Option::unwrap()` on a `None` value"
  | some (hbas, t) => do
    let numFree ← checkedSub t.numFree count
    .ok (hbas, { t with numFree, isDirty := true })

/-- Marks a block deallocated; the table does not become dirty by it. -/
def setDeallocated (nth : Hba) : Res AllocTable := do
  let bitmap ← t.bitmap.setBit nth true
  .ok { t with bitmap, numFree := t.numFree + 1 }

/-! ### The diff logs -/

/-- One diff in a log. -/
def diffBytes (diff : Hba × AllocDiff) : Bytes := diff.2.toByte :: LittleEndian.toBytes 8 diff.1

def padBlock (buf : Bytes) : Bytes := resize buf (alignUp buf.length blockSize)

/-- The buffers that `update_diff_log` appends to the log, with `buf` already filled. -/
def diffBuffers : List (Hba × AllocDiff) → Bytes → List Bytes
  | [], buf => if buf.isEmpty then [] else [padBlock buf]
  | diff :: diffs, buf =>
    let buf := buf ++ diffBytes diff
    if buf.length + diffRecordSize > maxDiffBufSize then padBlock buf :: diffBuffers diffs []
    else diffBuffers diffs buf

/-- The effect of one diff on the bitmap that is being recovered. -/
def replayDiff (bm : BitMap) (diff : Hba × AllocDiff) : Res BitMap :=
  match diff.2 with
  | .alloc => bm.setBit diff.1 false
  | .dealloc => bm.setBit diff.1 true
  | .invalid => panicWith "internal error: entered unreachable code"

/-- The loop over a diff log, at the bytes from `offset` on. A byte that is no diff is skipped. -/
def replayFrom : Nat → Bytes → BitMap → Res BitMap
  | 0, _, _ => panicWith "out of fuel"
  | _ + 1, [], bm => .ok bm
  | fuel + 1, b :: bytes, bm =>
    if (b :: bytes).length < diffRecordSize then .ok bm
    else if AllocDiff.ofByte b = .invalid then replayFrom fuel bytes bm
    else do
      let bm ← replayDiff bm (LittleEndian.ofBytes (bytes.take 8), .ofByte b)
      replayFrom fuel (bytes.drop 8) bm

def replayLog (bm : BitMap) (log : Bytes) : Res BitMap := do
  -- `log_nblocks * BLOCK_SIZE - DIFF_RECORD_SIZE`
  let _ ← checkedSub log.length diffRecordSize
  replayFrom (log.length + 1) log bm

/-- The bitmap of the latest `BVT` log, or the full one. -/
def baseBitmap (nblocks : Nat) (logs : AllocLogs) : Res BitMap :=
  match logs.bvt.getLast? with
  | none => .ok (List.replicate nblocks true)
  | some bytes =>
    match codec.fromBytes bytes with
    | some bm => .ok bm
    | none => fail .txAborted "recover block validity table TX aborted"

def recover (nblocks : Nat) (logs : AllocLogs) : Res AllocTable := do
  let base ← baseBitmap codec nblocks logs
  let bitmap ← logs.bal.foldlM replayLog base
  let first ← bitmap.firstOne 0
  .ok { bitmap, nextAvail := first.getD 0, nblocks, isDirty := false, numFree := bitmap.countOnes }

/-- Replaces all logs by one of the bitmap, if the table is dirty. -/
def doCompaction (t : AllocTable) (logs : AllocLogs) : Res (AllocTable × AllocLogs) :=
  if t.isDirty then
    let ser := codec.toSlice t.bitmap
    if ser.length > bitmapMaxSize then fail .invalidArgs "serialize block validity table failed"
    else .ok ({ t with isDirty := false }, { bvt := [padBlock ser], bal := [] })
  else .ok (t, logs)

end AllocTable

/-! ### The allocator of a transaction -/

abbrev DiffTable := SortedMap Hba AllocDiff

/-- A call on the allocator of a transaction. -/
inductive BlockCall
  | allocBlock (blockId : Hba)
  | deallocBlock (blockId : Hba)
  deriving DecidableEq, Repr

namespace BlockAlloc

variable (table : DiffTable)

def record : BlockCall → DiffTable
  | .allocBlock blockId => table.insert blockId .alloc
  | .deallocBlock blockId => table.insert blockId .dealloc

/-- The diff table after the calls of a transaction. -/
def diffTable (calls : List BlockCall) : DiffTable := calls.foldl record .empty

/-- `update_diff_log`, as part of a transaction that commits. -/
def updateDiffLog (logs : AllocLogs) : AllocLogs :=
  if table.isEmpty then logs
  else { logs with bal := logs.bal ++ [(AllocTable.diffBuffers table.entries []).flatten] }

/-- One round of the loop of `update_alloc_table`. -/
def applyDiff (s : BitMap × Nat) (diff : Hba × AllocDiff) : Res (BitMap × Nat) :=
  match diff.2 with
  | .alloc => .ok s
  | .dealloc => do
    let bitmap ← s.1.setBit diff.1 true
    .ok (bitmap, s.2 + 1)
  | .invalid => panicWith "internal error: entered unreachable code"

def updateAllocTable (t : AllocTable) : Res AllocTable := do
  let (bitmap, numDealloc) ← table.entries.foldlM applyDiff (t.bitmap, 0)
  .ok { t with bitmap, numFree := t.numFree + numDealloc }

end BlockAlloc

end OmegaOsx.MlsDisk
