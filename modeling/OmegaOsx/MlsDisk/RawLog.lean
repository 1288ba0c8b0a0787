import OmegaOsx.MlsDisk.ChunkJournal
import Mathlib.Data.List.SplitBy

/-!
# Raw logs: chunks, heads and tails

A raw log lives in chunks of `CHUNK_NBLOCKS` blocks. Its head is what committed transactions have
appended; the tail is what the current transaction appends, first into the free blocks of the last
chunk of the head and then into chunks of its own. A buffer is never empty, and its blocks are of an
arbitrary type `β`.

Reads and writes go to the disk in runs of consecutive blocks.
-/

namespace OmegaOsx.MlsDisk

abbrev RawLogId := Nat
abbrev BlockId := Nat

@[irreducible] def chunkNblocks : Nat := 1024

theorem chunkNblocks_eq : chunkNblocks = 1024 := by unfold chunkNblocks; rfl

theorem chunkNblocks_pos : 0 < chunkNblocks := by rw [chunkNblocks_eq]; decide

structure RawLogHead where
  chunks : List ChunkId
  numBlocks : Nat
  deriving DecidableEq, Repr

structure RawLogEntry where
  head : RawLogHead
  deriving DecidableEq, Repr

structure RawLogTail where
  headLastChunkId : ChunkId
  headLastChunkFreeBlocks : Nat
  chunks : List ChunkId
  numBlocks : Nat
  deriving DecidableEq, Repr

inductive RawLogEdit
  | create (tail : RawLogTail)
  | append (tail : RawLogTail)
  | delete
  deriving DecidableEq, Repr

def RawLogHead.new : RawLogHead := ⟨[], 0⟩

variable (head : RawLogHead) (tail : RawLogTail)

/-- `RawLogHead::append`. -/
def RawLogHead.append : Res RawLogHead := do
  let numBlocks ← addU32 head.numBlocks tail.numBlocks
  pure ⟨head.chunks ++ tail.chunks, numBlocks⟩

namespace RawLogTail

def new : RawLogTail := ⟨0, 0, [], 0⟩

/-- The number of free blocks is cast to 16 bits. -/
def fromHead : Res RawLogTail := do
  let freeBlocks ← checkedSub (head.chunks.length * chunkNblocks) head.numBlocks
  pure ⟨head.chunks.getLast?.getD 0, freeBlocks % 2 ^ 16, [], 0⟩

def calcNeededChunks (appendNblocks : Nat) : Res Nat := do
  let availBlocks ←
    checkedSub (tail.headLastChunkFreeBlocks + tail.chunks.length * chunkNblocks) tail.numBlocks
  pure (if appendNblocks > availBlocks then
    alignUp (appendNblocks - availBlocks) chunkNblocks / chunkNblocks else 0)

end RawLogTail

/-- The loop over the chunks in `prepare_blocks`: the blocks of `count` positions from `offset`. -/
def chunkBlocks (chunks : List ChunkId) (offset : Nat) : Nat → Res (List BlockId)
  | 0 => pure []
  | count + 1 =>
    match chunks[offset / chunkNblocks]? with
    | none => panicWith "index out of bounds"
    | some chunk => do
      let rest ← chunkBlocks chunks (offset + 1) count
      pure ((chunk * chunkNblocks + offset % chunkNblocks) :: rest)

/-- `RawLogHeadRef::prepare_blocks`. -/
def RawLogHead.prepareBlocks (offset nblocks : Nat) : Res (List BlockId) :=
  chunkBlocks head.chunks offset nblocks

/-- `RawLogTailRef::prepare_blocks`, for a positive number of blocks. -/
def RawLogTail.prepareBlocks (offset nblocks : Nat) : Res (List BlockId) :=
  let free := tail.headLastChunkFreeBlocks
  if offset < free then do
    let used ← checkedSub chunkNblocks free
    let resBlocks := ((List.range' offset (free - offset)).map fun i =>
      tail.headLastChunkId * chunkNblocks + (used + i)).take nblocks
    let rest ← chunkBlocks tail.chunks 0 (nblocks - resBlocks.length)
    pure (resBlocks ++ rest)
  else chunkBlocks tail.chunks (offset - free) nblocks

section Disk

variable {β : Type}

/-- Whether two blocks are read or written together. -/
def consecutive (b1 b2 : BlockId) : Bool := b2 - b1 == 1

variable (disk : BlockId → β)

/-- A read of `len` consecutive blocks. -/
def readRun (first len : Nat) : List β := (List.range' first len).map disk

/-- A write of a buffer to consecutive blocks. -/
def writeRun (first : BlockId) (buf : List β) : BlockId → β := fun b =>
  if first ≤ b then buf[b - first]?.getD (disk b) else disk b

/-- The batched read of `RawLogHeadRef::read` and `RawLogTailRef::read`. -/
def readBlocks (blocks : List BlockId) : List β :=
  (blocks.splitBy consecutive).flatMap fun run => readRun disk (run.head?.getD 0) run.length

/-- The batched write of `RawLogTailRef::append`. -/
def writeRuns (disk : BlockId → β) : List (List BlockId) → List β → BlockId → β
  | [], _ => disk
  | run :: runs, buf =>
    writeRuns (writeRun disk (run.head?.getD 0) (buf.take run.length)) runs (buf.drop run.length)

def writeBlocks (blocks : List BlockId) (buf : List β) : BlockId → β :=
  writeRuns disk (blocks.splitBy consecutive) buf

end Disk

end OmegaOsx.MlsDisk
