import OmegaOsx.MlsDisk.RawLog
import Mathlib.Data.Finset.Erase
import Mathlib.Data.Finset.Insert

/-!
# The store of raw logs

The store with its chunk allocator, the edits of the ongoing transactions and the live handles. A
`LazyDelete` is shared by the store's table and by the handles opened from it: it has been marked
deleted when the table no longer has it, and its chunks are given back when the last holder goes, in
the transaction of the thread on which that happens.

Commit handlers run in the reverse order of their registration: the store's first, then the
allocator's and the journal's. There is no abort handler for the store. An operation that returns
an error leaves the store as it was, so only the successful ones are steps.
-/

namespace OmegaOsx.MlsDisk

abbrev RawLogStoreEdit := Table RawLogId RawLogEdit

namespace RawLogStoreEdit

variable (edit : RawLogStoreEdit)

def createLog (newLogId : RawLogId) : RawLogStoreEdit :=
  edit.insert newLogId (.create .new)

variable (logId : RawLogId)

def openLog (logEntry : RawLogEntry) : Res RawLogStoreEdit :=
  match edit.lookup logId with
  | none => do
    let tail ← RawLogTail.fromHead logEntry.head
    pure (edit.insert logId (.append tail))
  | some (.create _) => panicWith "internal error: entered unreachable code"
  | some (.append _) => pure edit
  | some .delete => panicWith "try to open a deleted log!"

/-- The chunks of the tail that the deletion discards, if there is one. -/
def deleteLog : Res (Option (List ChunkId) × RawLogStoreEdit) :=
  match edit.lookup logId with
  | none => pure (none, edit.insert logId .delete)
  | some (.create tail) => pure (some tail.chunks, edit.insert logId .delete)
  | some (.append tail) => pure (some tail.chunks, edit.insert logId .delete)
  | some .delete => panicWith "try to delete a deleted log!"

def isLogCreated : Bool :=
  match edit.lookup logId with
  | some (.create _) | some (.append _) => true
  | some .delete | none => false

def iterCreatedLogs : List RawLogId :=
  edit.keysWith fun | .create _ => true | _ => false

def iterDeletedLogs : List RawLogId :=
  edit.keysWith fun | .delete => true | _ => false

/-- The tail that a transaction writes to, in a create or an append edit. -/
def tail? : Option RawLogTail :=
  match edit.lookup logId with
  | some (.create tail) | some (.append tail) => some tail
  | some .delete | none => none

/-- The edit with the tail of a log replaced. -/
def setTail (tail : RawLogTail) : RawLogStoreEdit :=
  match edit.lookup logId with
  | some (.create _) => edit.insert logId (.create tail)
  | some (.append _) => edit.insert logId (.append tail)
  | some .delete | none => edit

end RawLogStoreEdit

abbrev RawLogStoreState := Table RawLogId RawLogEntry

namespace RawLogStoreState

variable (state : RawLogStoreState)

def appendLog (logId : RawLogId) (tail : RawLogTail) : Res RawLogStoreState :=
  match state.lookup logId with
  | none => panicWith "called `Option::unwrap()` on a `None` value"
  | some entry => do
    let head ← entry.head.append tail
    pure (state.insert logId ⟨head⟩)

/-- One entry of `RawLogStoreEdit::apply_to`. -/
def applyEntry : (_ : RawLogId) × RawLogEdit → Res RawLogStoreState
  | ⟨logId, .create tail⟩ => appendLog (state.insert logId ⟨.new⟩) logId tail
  | ⟨logId, .append tail⟩ => state.appendLog logId tail
  | ⟨logId, .delete⟩ => pure (state.erase logId)

def apply (edit : RawLogStoreEdit) : Res RawLogStoreState :=
  edit.entries.foldlM applyEntry state

end RawLogStoreState

/-- A handle of a raw log; `lazyDelete` is the object of the `LazyDelete` it shares. -/
structure RawLog where
  logId : RawLogId
  logEntry : Option RawLogEntry
  lazyDelete : Option RawLogEntry
  appendPos : Nat
  canAppend : Bool
  deriving DecidableEq, Repr

structure RawLogStore (β : Type) where
  chunks : ChunkSystem
  persistent : RawLogStoreState
  nextFreeLogId : RawLogId
  writeSet : Finset RawLogId
  lazyDeletes : Table RawLogId RawLogEntry
  edits : Table Tid RawLogStoreEdit
  handles : Table Nat RawLog
  nextHandle : Nat
  disk : BlockId → β

inductive RawLogOp (β : Type)
  | newTx (tid : Tid)
  | create (tid : Tid)
  | openLog (tid : Tid) (logId : RawLogId) (canAppend : Bool)
  | append (tid : Tid) (handle : Nat) (buf : { bs : List β // bs ≠ [] })
  | delete (tid : Tid) (logId : RawLogId)
  | drop (tid : Tid) (handle : Nat)
  | commit (tid : Tid)
  | abort (tid : Tid)

namespace RawLogStore

variable {β : Type}

/-- `from_parts`, with the running state of the allocator. -/
def fromParts (persistent : RawLogStoreState) (chunks : ChunkSystem) (disk : BlockId → β) :
    RawLogStore β where
  chunks := chunks
  persistent := persistent
  nextFreeLogId := match persistent.keys.max? with
    | some maxLogId => maxLogId + 1
    | none => 0
  writeSet := ∅
  lazyDeletes := persistent
  edits := ∅
  handles := ∅
  nextHandle := 0
  disk := disk

variable (s : RawLogStore β) (tid : Tid)

/-- The store's data of the current transaction; it is initialised when it is first used. -/
def currentEdit : Res RawLogStoreEdit := do
  let _ ← s.chunks.current tid
  pure ((s.edits.lookup tid).getD ∅)

def setEdit (edit : RawLogStoreEdit) : RawLogStore β :=
  { s with edits := s.edits.insert tid edit }

def addHandle (log : RawLog) : RawLogStore β :=
  { s with handles := s.handles.insert s.nextHandle log, nextHandle := s.nextHandle + 1 }

variable (logId : RawLogId)

def addToWriteSet : Res (RawLogStore β) :=
  if logId ∈ s.writeSet then fail .permissionDenied "the raw log has more than one writer"
  else pure { s with writeSet := insert logId s.writeSet }

def removeFromWriteSet : RawLogStore β :=
  { s with writeSet := s.writeSet.erase logId }

def handle (s : RawLogStore β) (h : Nat) : Res RawLog :=
  match s.handles.lookup h with
  | some log => pure log
  | none => panicWith "no such handle"

def newTx (s : RawLogStore β) (tid : Tid) : RawLogStore β :=
  { s with chunks := s.chunks.newTx tid }

/-- The id after the one that is handed out. -/
def allocLogId (nextFreeLogId : RawLogId) : Res RawLogId :=
  if nextFreeLogId + 1 < 2 ^ 64 then pure (nextFreeLogId + 1)
  else panicWith "64-bit IDs won't be exhausted even though IDs are not recycled"

def createLog (s : RawLogStore β) (tid : Tid) : Res (RawLogStore β) := do
  let newLogId := s.nextFreeLogId
  let nextFreeLogId ← allocLogId newLogId
  if newLogId ∈ s.writeSet then panicWith "created log can't appear in write set"
  else
    let edit ← s.currentEdit tid
    let s := { s with nextFreeLogId, writeSet := insert newLogId s.writeSet }
    pure ((s.setEdit tid (edit.createLog newLogId)).addHandle ⟨newLogId, none, none, 0, true⟩)

/-- The part of `open_log` for a committed log in the append mode. -/
def prepareAppend (logEntry : RawLogEntry) : Res (RawLogStore β) := do
  let s ← s.addToWriteSet logId
  let edit ← s.currentEdit tid
  let edit ← edit.openLog logId logEntry
  pure (s.setEdit tid edit)

/-- Preparation of a log that a transaction has committed, in either mode. -/
def prepareOpen (logEntry : RawLogEntry) (canAppend : Bool) : Res (RawLogStore β) :=
  if canAppend then s.prepareAppend tid logId logEntry else pure s

def openLog (canAppend : Bool) : Res (RawLogStore β) :=
  match s.lazyDeletes.lookup logId with
  | none => fail .notFound "raw log already been deleted"
  | some lazyDelete =>
    match s.persistent.lookup logId with
    | some logEntry => do
      let s ← s.prepareOpen tid logId logEntry canAppend
      pure (s.addHandle
        ⟨logId, some logEntry, some lazyDelete, logEntry.head.numBlocks, canAppend⟩)
    | none => do
      let edit ← s.currentEdit tid
      if edit.isLogCreated logId then
        pure (s.addHandle ⟨logId, none, some lazyDelete, 0, canAppend⟩)
      else fail .notFound "raw log not found"

/-- `dealloc_batch` of the allocator in the current transaction. -/
def deallocChunks (ids : List ChunkId) : Res (RawLogStore β) := do
  let chunks ← s.chunks.deallocBatch tid ids
  pure { s with chunks }

/-- Freeing the chunks of a discarded tail. -/
def freeTail : Option (List ChunkId) → Res (RawLogStore β)
  | some ids => s.deallocChunks tid ids
  | none => pure s

def deleteLog (s : RawLogStore β) (tid : Tid) (logId : RawLogId) : Res (RawLogStore β) := do
  let edit ← s.currentEdit tid
  let (tailChunks, edit) ← edit.deleteLog logId
  let s ← (s.setEdit tid edit).freeTail tid tailChunks
  pure (s.removeFromWriteSet logId)

/-- The chunks that an append needs in addition, if any. -/
def allocNeeded (chunks : ChunkSystem) (tid : Tid) (chunksNeeded : Nat) :
    Res (List ChunkId × ChunkSystem) :=
  if chunksNeeded > 0 then chunks.allocBatch tid chunksNeeded else pure ([], chunks)

/-- `RawLogRef::append` on the tail of the current transaction. -/
def appendTail (edit : RawLogStoreEdit) (tail : RawLogTail) (buf : List β) :
    Res (RawLogStore β) := do
  let chunksNeeded ← tail.calcNeededChunks buf.length
  let (newChunks, chunks) ← allocNeeded s.chunks tid chunksNeeded
  let tail := { tail with chunks := tail.chunks ++ newChunks }
  let preparedBlocks ← tail.prepareBlocks tail.numBlocks buf.length
  let disk := writeBlocks s.disk preparedBlocks buf
  let numBlocks ← addU32 tail.numBlocks (buf.length % 2 ^ 32)
  pure ({ s with chunks, disk }.setEdit tid (edit.setTail logId { tail with numBlocks }))

/-- `RawLog::append`: it returns the position that the handle had. -/
def append (s : RawLogStore β) (tid : Tid) (h : Nat) (buf : List β) :
    Res (BlockId × RawLogStore β) := do
  let log ← s.handle h
  if log.canAppend then
    let edit ← s.currentEdit tid
    match edit.tail? log.logId with
    | none => panicWith "raw log must be opened in append mode"
    | some tail =>
      let s ← s.appendTail tid log.logId edit tail buf
      let pos := log.appendPos
      let log := { log with appendPos := pos + buf.length }
      pure (pos, { s with handles := s.handles.insert h log })
  else fail .permissionDenied "raw log not in append mode"

/-- The part of a read that lies in the head. -/
def readHead (disk : BlockId → β) (head? : Option RawLogHead) (pos numRead : Nat) : Res (List β) :=
  match head? with
  | some head =>
    if pos < head.numBlocks then readBlocks disk <$> head.prepareBlocks pos numRead else pure []
  | none => pure []

/-- The part of a read that lies in the tail. -/
def readTail (disk : BlockId → β) (tail? : Option RawLogTail) (offset numRead : Nat) :
    Res (List β) :=
  match tail? with
  | some tail => readBlocks disk <$> tail.prepareBlocks offset numRead
  | none => pure []

/-- `RawLogRef::read` of `nblocks` blocks, with the head of the handle and the tail of the current
transaction. -/
def read (s : RawLogStore β) (tid : Tid) (h : Nat) (pos nblocks : Nat) : Res (List β) := do
  let log ← s.handle h
  let edit ← s.currentEdit tid
  let head? := log.logEntry.map (·.head)
  let tail? := edit.tail? log.logId
  let headLen := (head?.map (·.numBlocks)).getD 0
  let tailLen := (tail?.map (·.numBlocks)).getD 0
  let totalLen := headLen + tailLen
  if pos + nblocks > totalLen then fail .invalidArgs "do not allow short read"
  else
    let numRead := if pos < headLen then min nblocks (headLen - pos) else 0
    let front ← readHead s.disk head? pos numRead
    if nblocks - numRead = 0 then pure front
    else
      let back ← readTail s.disk tail? (pos + numRead - headLen) (nblocks - numRead)
      pure (front ++ back)

/-- Whether some live handle shares the `LazyDelete` of a log. -/
def isShared : Bool :=
  s.handles.entries.any fun entry => entry.2.logId == logId && entry.2.lazyDelete.isSome

/-- Dropping a handle: it leaves the write set, and then its `LazyDelete` is released. -/
def dropHandle (h : Nat) : Res (RawLogStore β) := do
  let log ← s.handle h
  let s := { s with handles := s.handles.erase h }
  let s := if log.canAppend then s.removeFromWriteSet log.logId else s
  match log.lazyDelete with
  | some entry =>
    if (s.lazyDeletes.lookup log.logId).isSome || s.isShared log.logId then pure s
    else s.deallocChunks tid entry.head.chunks
  | none => pure s

/-- One round of `add_lazy_deletes_for_created_logs`. -/
def addLazyDelete : RawLogStore β :=
  match s.persistent.lookup logId with
  | some entry =>
    if (s.lazyDeletes.lookup logId).isSome then s
    else { s with lazyDeletes := s.lazyDeletes.insert logId entry }
  | none => s

/-- One round of `do_lazy_deletion`. -/
def doLazyDelete (s : RawLogStore β) (logId : RawLogId) : Res (RawLogStore β) :=
  match s.lazyDeletes.lookup logId with
  | none => pure s
  | some entry =>
    let s := { s with lazyDeletes := s.lazyDeletes.erase logId }
    if s.isShared logId then pure s else s.deallocChunks tid entry.head.chunks

/-- The commit handler of the store. -/
def onCommit : Res (RawLogStore β) := do
  let edit ← s.currentEdit tid
  let persistent ← s.persistent.apply edit
  let s := edit.iterCreatedLogs.foldl addLazyDelete { s with persistent }
  edit.iterDeletedLogs.foldlM (doLazyDelete tid) s

def commit (s : RawLogStore β) (tid : Tid) : Res (RawLogStore β) := do
  let s ← s.onCommit tid
  let chunks ← s.chunks.commit tid
  pure { s with chunks, edits := s.edits.erase tid }

def abort (s : RawLogStore β) (tid : Tid) : Res (RawLogStore β) := do
  let chunks ← s.chunks.abort tid
  pure { s with chunks, edits := s.edits.erase tid }

def exec : RawLogOp β → Res (RawLogStore β)
  | .newTx tid => pure (s.newTx tid)
  | .create tid => s.createLog tid
  | .openLog tid logId canAppend => s.openLog tid logId canAppend
  | .append tid h buf => Prod.snd <$> s.append tid h buf.1
  | .delete tid logId => s.deleteLog tid logId
  | .drop tid h => s.dropHandle tid h
  | .commit tid => s.commit tid
  | .abort tid => s.abort tid

end RawLogStore

end OmegaOsx.MlsDisk
