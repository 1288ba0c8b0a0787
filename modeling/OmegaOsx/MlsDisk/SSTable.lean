import OmegaOsx.MlsDisk.MemTable
import OmegaOsx.MlsDisk.RangeQuery
import OmegaOsx.Lib.Cache
import OmegaOsx.Lib.LittleEndian

/-!
# Sorted string tables

An `SSTable` keeps records sorted by key in a log: blocks full of records, then an index of the
blocks, and the footer metadata in the last bytes. A table is built once and read afterwards, either
the one that was built or one loaded from the log.

The log of a table is its bytes; its reads fail only outside the log. The event listener is the
list of what was reported to it.
-/

namespace OmegaOsx.MlsDisk

@[irreducible] def recordBlockNblocks : Nat := 32

@[irreducible] def recordBlockSize : Nat := 131072

@[irreducible] def footerMetaSize : Nat := 24

theorem recordBlockSize_eq : recordBlockSize = recordBlockNblocks * blockSize := by decide +kernel

/-- The key type, the value type, and the block cache of a table. -/
structure SstEnv (κ K V : Type) [LinearOrder K] where
  key : RecordKey K
  value : Pod V
  cache : Cache κ Nat Bytes
  newCache : κ
  newCache_holds : ∀ {pos block}, ¬ cache.holds newCache pos block

inductive RecordFlag
  | synced
  | unsynced
  | syncedAndUnsynced
  | invalid
  deriving DecidableEq, Repr

namespace RecordFlag

def ofByte : UInt8 → RecordFlag
  | 7 => synced
  | 11 => unsynced
  | 19 => syncedAndUnsynced
  | _ => invalid

end RecordFlag

structure FooterMeta where
  numIndex : UInt16
  indexNblocks : UInt16
  totalRecords : UInt32
  recordBlockSize : UInt32
  syncId : UInt64
  deriving DecidableEq, Repr

namespace FooterMeta

open LittleEndian

/-- The fields at their `repr(C)` offsets; four bytes before the sync ID pad it. -/
def asBytes (m : FooterMeta) : Bytes :=
  toBytes 2 m.numIndex.toNat ++ toBytes 2 m.indexNblocks.toNat ++
    toBytes 4 m.totalRecords.toNat ++ toBytes 4 m.recordBlockSize.toNat ++
    List.replicate 4 0 ++ toBytes 8 m.syncId.toNat

def fromBytes (bytes : Bytes) : FooterMeta where
  numIndex := .ofNat (ofBytes (bytes.take 2))
  indexNblocks := .ofNat (ofBytes ((bytes.drop 2).take 2))
  totalRecords := .ofNat (ofBytes ((bytes.drop 4).take 4))
  recordBlockSize := .ofNat (ofBytes ((bytes.drop 8).take 4))
  syncId := .ofNat (ofBytes ((bytes.drop 16).take 8))

end FooterMeta

structure IndexEntry (K : Type) where
  pos : Nat
  first : K
  last : K

structure SSTable (K : Type) where
  footerMeta : FooterMeta
  index : List (IndexEntry K)

/-- The log of a table, its block cache, and the records reported to the event listener. -/
structure TableState (κ K V : Type) where
  log : Bytes
  cache : κ
  added : List (K × V)
  dropped : List (K × V)

abbrev TableM (κ K V : Type) := EStateM Fault (TableState κ K V)

/-! ## Slices, buffers and the log -/

/-- `&buf[start..stop]`. -/
def slice (buf : Bytes) (start stop : Nat) : Res Bytes :=
  if start ≤ stop ∧ stop ≤ buf.length then .ok ((buf.drop start).take (stop - start))
  else panicWith "range end index out of range for slice"

/-- `buf[i]`. -/
def byteAt (buf : Bytes) (i : Nat) : Res UInt8 :=
  match buf[i]? with
  | some b => .ok b
  | none => panicWith "index out of bounds"

variable {κ K V : Type}

namespace TxLog

def nblocks : TableM κ K V Nat := do
  let s ← get
  return s.log.length / blockSize

def append (buf : Bytes) : TableM κ K V Unit := modify fun s => { s with log := s.log ++ buf }

def read (pos nblocks : Nat) : TableM κ K V Bytes := do
  let s ← get
  if (pos + nblocks) * blockSize ≤ s.log.length then
    return (s.log.drop (pos * blockSize)).take (nblocks * blockSize)
  else raise .invalidArgs "search out of MHT capacity"

end TxLog

variable [LinearOrder K] (env : SstEnv κ K V)

namespace SstEnv

def kSize : Nat := env.key.pod.size

def vSize : Nat := env.value.size

def minRecordSize : Nat := bidSize + 1 + env.vSize

def maxRecordSize : Nat := bidSize + 1 + 2 * env.vSize

def indexEntrySize : Nat := bidSize + 2 * env.kSize

end SstEnv

/-! ## Building -/

/-- The bytes of one record: key, flag, and one or two values. -/
def recordBytes (k : K) : ValueEx V → Bytes
  | .synced v => env.key.pod.asBytes k ++ 7 :: env.value.asBytes v
  | .unsynced v => env.key.pod.asBytes k ++ 11 :: env.value.asBytes v
  | .syncedAndUnsynced sv usv =>
    env.key.pod.asBytes k ++ 19 :: (env.value.asBytes sv ++ env.value.asBytes usv)

/-- By how much `inner_offset` advances for a record. -/
def countedSize : ValueEx V → Nat
  | .synced _ => env.kSize + (1 + env.vSize)
  | .unsynced _ => env.kSize + (1 + env.vSize)
  | .syncedAndUnsynced _ _ => env.kSize + env.maxRecordSize

/-- The values of a record, in the order they are reported to the listener. -/
def reported (k : K) : ValueEx V → List (K × V)
  | .synced v => [(k, v)]
  | .unsynced v => [(k, v)]
  | .syncedAndUnsynced sv usv => [(k, sv), (k, usv)]

variable (listening : Bool)

/-- Reports the values of a record as added, if anyone listens. -/
def onAddRecord (k : K) (valueEx : ValueEx V) : TableM κ K V Unit :=
  if listening then modify fun s => { s with added := s.added ++ reported k valueEx } else pure ()

/-- The local variables of the loop of `build_record_blocks`. -/
structure BlockBuilder (K : Type) where
  indexVec : List (IndexEntry K)
  totalRecords : Nat
  pos : Nat
  firstK : Option K
  currK : Option K
  innerOffset : Nat
  blockBuf : Bytes

/-- Writes the block of an index entry to the log and to the cache. -/
def buildOneRecordBlock (entry : IndexEntry K) (buf : Bytes) : TableM κ K V Unit := do
  let block := resize buf recordBlockSize
  TxLog.append block
  modify fun s => { s with cache := env.cache.put s.cache entry.pos block }

namespace BlockBuilder

def new : BlockBuilder K := ⟨[], 0, 0, none, none, 0, []⟩

/-- One round of the loop. -/
def add (b : BlockBuilder K) (record : K × ValueEx V) : TableM κ K V (BlockBuilder K) := do
  let (k, valueEx) := record
  let firstK := if b.innerOffset = 0 then some k else b.firstK
  let blockBuf := b.blockBuf ++ recordBytes env k valueEx
  onAddRecord listening k valueEx
  let innerOffset := b.innerOffset + countedSize env valueEx
  let capRemained ← liftRes (checkedSub recordBlockSize innerOffset)
  let b := { b with totalRecords := b.totalRecords + 1, firstK, currK := some k, innerOffset, blockBuf }
  if env.maxRecordSize ≤ capRemained then return b
  let entry := { pos := b.pos, first := ← unwrapOption firstK, last := k }
  buildOneRecordBlock env entry blockBuf
  return { b with
    indexVec := b.indexVec ++ [entry]
    pos := b.pos + recordBlockNblocks
    innerOffset := 0
    blockBuf := [] }

def addAll (listening : Bool) : List (K × ValueEx V) → BlockBuilder K → TableM κ K V (BlockBuilder K)
  | [], b => return b
  | record :: records, b => do
    let b ← b.add env listening record
    addAll listening records b

end BlockBuilder

def buildRecordBlocks (records : List (K × ValueEx V)) : TableM κ K V (Nat × List (IndexEntry K)) := do
  let b ← BlockBuilder.new.addAll env listening records
  if b.blockBuf.isEmpty then return (b.totalRecords, b.indexVec)
  let lastEntry := { pos := b.pos, first := ← unwrapOption b.firstK, last := ← unwrapOption b.currK }
  buildOneRecordBlock env lastEntry b.blockBuf
  return (b.totalRecords, b.indexVec ++ [lastEntry])

def indexEntryBytes (entry : IndexEntry K) : Bytes :=
  LittleEndian.toBytes bidSize entry.pos ++ env.key.pod.asBytes entry.first ++ env.key.pod.asBytes entry.last

def buildFooter (indexVec : List (IndexEntry K)) (totalRecords : Nat) (syncId : UInt64) :
    TableM κ K V (SSTable K) := do
  let footerBufLen := alignUp (indexVec.length * env.indexEntrySize + footerMetaSize) blockSize
  let appendBuf := resize (indexVec.flatMap (indexEntryBytes env)) footerBufLen
  let footerMeta : FooterMeta :=
    { numIndex := .ofNat indexVec.length
      indexNblocks := .ofNat (footerBufLen / blockSize)
      totalRecords := .ofNat totalRecords
      recordBlockSize := .ofNat recordBlockSize
      syncId }
  TxLog.append (appendBuf.take (footerBufLen - footerMetaSize) ++ footerMeta.asBytes)
  return { footerMeta, index := indexVec }

namespace SSTable

/-- Builds a table in a new log. -/
def build (records : List (K × ValueEx V)) (syncId : UInt64) : TableM κ K V (SSTable K) := do
  modify fun s => { s with cache := env.newCache }
  let (totalRecords, indexVec) ← buildRecordBlocks env listening records
  buildFooter env indexVec totalRecords syncId

/-! ## Loading -/

/-- Parses the index entries from number `i` on, and puts their blocks into the cache. -/
def loadIndex (rbuf : Bytes) (i : Nat) : Nat → TableM κ K V (List (IndexEntry K))
  | 0 => return []
  | n + 1 => do
    let buf ← liftRes (slice rbuf (i * env.indexEntrySize) ((i + 1) * env.indexEntrySize))
    let pos := LittleEndian.ofBytes (← liftRes (slice buf 0 bidSize))
    let first := env.key.pod.fromBytes (← liftRes (slice buf bidSize (bidSize + env.kSize)))
    let last := env.key.pod.fromBytes
      (← liftRes (slice buf (env.indexEntrySize - env.kSize) env.indexEntrySize))
    let block ← TxLog.read pos recordBlockNblocks
    modify fun s => { s with cache := env.cache.put s.cache pos block }
    let rest ← loadIndex rbuf (i + 1) n
    return { pos, first, last } :: rest

def fromLog : TableM κ K V (SSTable K) := do
  let nblocks ← TxLog.nblocks
  let rbuf ← TxLog.read (← liftRes (checkedSub nblocks 1)) 1
  let footerMeta := FooterMeta.fromBytes (← liftRes (slice rbuf (blockSize - footerMetaSize) blockSize))
  let indexNblocks := footerMeta.indexNblocks.toNat
  if indexNblocks = 0 then
    raise .invalidArgs "num_blocks must be greater than 0 for allocation"
  let rbuf ← TxLog.read (← liftRes (checkedSub nblocks indexNblocks)) indexNblocks
  modify fun s => { s with cache := env.newCache }
  let index ← loadIndex env rbuf 0 footerMeta.numIndex.toNat
  return { footerMeta, index }

/-! ## Reading -/

/-- The record block at a position, from the cache or from the log. -/
def targetRecordBlock (targetPos : Nat) : TableM κ K V Bytes := do
  let s ← get
  let (cached, cache) := env.cache.get s.cache targetPos
  set { s with cache }
  match cached with
  | some block => return block
  | none =>
    let block ← TxLog.read targetPos recordBlockNblocks
    modify fun s => { s with cache := env.cache.put s.cache targetPos block }
    return block

end SSTable

/-- The key and the flag of the record at `offset`, and the offset behind them; `none` at the end of
a block. -/
def recordHead (block : Bytes) (offset : Nat) : Res (Option (K × RecordFlag × Nat)) := do
  if offset + env.minRecordSize > recordBlockSize then return none
  let k := env.key.pod.fromBytes (← slice block offset (offset + env.kSize))
  let flag := RecordFlag.ofByte (← byteAt block (offset + env.kSize))
  if flag = .invalid then return none
  return some (k, flag, offset + env.kSize + 1)

def valueAt (block : Bytes) (offset : Nat) : Res V := do
  return env.value.fromBytes (← slice block offset (offset + env.vSize))

inductive QueryAccessor (K : Type)
  | point (k : K)
  | range (first last : K)

def QueryAccessor.hitTarget : QueryAccessor K → K → Bool
  | point k, target => k = target
  | range first last, target => first ≤ target ∧ target ≤ last

namespace BlockQueryIter

/-- The record at `offset` and the offset of the next one; the value is read only on a hit. -/
def next (block : Bytes) (accessor : QueryAccessor K) (offset : Nat) :
    Res (Option ((K × Option V) × Nat)) := do
  match ← recordHead env block offset with
  | none => return none
  | some (k, flag, offset) =>
    let hit := accessor.hitTarget k
    match flag with
    | .synced | .unsynced =>
      let v ← if hit then some <$> valueAt env block offset else pure none
      return some ((k, v), offset + env.vSize)
    | .syncedAndUnsynced =>
      let v ← if hit then some <$> valueAt env block (offset + env.vSize) else pure none
      return some ((k, v), offset + 2 * env.vSize)
    | .invalid => panicWith "internal error: entered unreachable code"

/-- `find_map` for the value of a key. -/
def findValue (block : Bytes) (k : K) : Nat → Nat → Res (Option V)
  | 0, _ => panicWith "out of fuel"
  | fuel + 1, offset => do
    match ← next env block (.point k) offset with
    | none => return none
    | some ((k', v), offset) =>
      match if k' = k then v else none with
      | some v => return some v
      | none => findValue block k fuel offset

/-- `filter_map` for the records of a range, collected. -/
def collectRange (block : Bytes) (first last : K) : Nat → Nat → Res (List (K × V))
  | 0, _ => panicWith "out of fuel"
  | fuel + 1, offset => do
    match ← next env block (.range first last) offset with
    | none => return []
    | some ((k, v), offset) =>
      if first ≤ k ∧ k ≤ last then
        match v with
        | some v => return (k, v) :: (← collectRange block first last fuel offset)
        | none => panicWith "called `Option::unwrap()` on a `None` value"
      else collectRange block first last fuel offset

end BlockQueryIter

structure ScanAccessor where
  allSynced : Bool
  discardUnsynced : Bool
  listening : Bool

/-- Reports a dropped record, if anyone listens. -/
def ScanAccessor.onDropRecord (a : ScanAccessor) (k : K) (v : V) : TableM κ K V Unit :=
  if a.listening then modify fun s => { s with dropped := s.dropped ++ [(k, v)] } else pure ()

namespace BlockScanIter

/-- The next record to yield from `offset` on, and the offset behind it. -/
def next (a : ScanAccessor) (block : Bytes) : Nat → Nat → TableM κ K V (Option ((K × ValueEx V) × Nat))
  | 0, _ => crash "out of fuel"
  | fuel + 1, offset => do
    match ← liftRes (recordHead env block offset) with
    | none => return none
    | some (k, .synced, offset) =>
      let v ← liftRes (valueAt env block offset)
      return some ((k, .synced v), offset + env.vSize)
    | some (k, .unsynced, offset) =>
      let v ← liftRes (valueAt env block offset)
      if a.allSynced then return some ((k, .synced v), offset + env.vSize)
      if a.discardUnsynced then
        a.onDropRecord k v
        next a block fuel (offset + env.vSize)
      else return some ((k, .unsynced v), offset + env.vSize)
    | some (k, .syncedAndUnsynced, offset) =>
      let sv ← liftRes (valueAt env block offset)
      let usv ← liftRes (valueAt env block (offset + env.vSize))
      let offset := offset + env.vSize + env.vSize
      if a.allSynced then
        a.onDropRecord k sv
        return some ((k, .synced usv), offset)
      if a.discardUnsynced then
        a.onDropRecord k usv
        return some ((k, .synced sv), offset)
      return some ((k, .syncedAndUnsynced sv usv), offset)
    | some (_, .invalid, _) => crash "internal error: entered unreachable code"

end BlockScanIter

/-- Enough rounds for any loop over the records of a block. -/
def blockFuel : Nat := recordBlockSize + 1

/-- The iterator over a whole table: the index of the current block, the block and the offset. -/
structure SstIter where
  currNthIndex : Nat
  currRbIter : Option (Bytes × Nat)

namespace SstIter

def next (sst : SSTable K) (a : ScanAccessor) (it : SstIter) :
    TableM κ K V (Option (K × ValueEx V) × SstIter) := do
  let (block, offset) ← unwrapOption it.currRbIter
  match ← BlockScanIter.next env a block blockFuel offset with
  | some (record, offset) => return (some record, { it with currRbIter := some (block, offset) })
  | none =>
    let nth := it.currNthIndex + 1
    if sst.footerMeta.numIndex.toNat ≤ nth then return (none, ⟨nth, none⟩)
    match sst.index[nth]? with
    | none => crash "index out of bounds"
    | some entry =>
      let block ← unwrap (SSTable.targetRecordBlock env entry.pos)
      match ← BlockScanIter.next env a block blockFuel 0 with
      | none => return (none, ⟨nth, none⟩)
      | some (record, offset) => return (some record, ⟨nth, some (block, offset)⟩)

def collect (sst : SSTable K) (a : ScanAccessor) : Nat → SstIter → TableM κ K V (List (K × ValueEx V))
  | 0, _ => crash "out of fuel"
  | fuel + 1, it => do
    let (record, it) ← next env sst a it
    match record with
    | none => return []
    | some record => return record :: (← collect sst a fuel it)

end SstIter

namespace SSTable

variable (sst : SSTable K)

def accessPoint (k : K) : TableM κ K V V := do
  match sst.index.findSome? fun entry =>
      if entry.first ≤ k ∧ k ≤ entry.last then some entry.pos else none with
  | none => raise .notFound "target key not found in sst"
  | some pos =>
    let block ← targetRecordBlock env pos
    match ← liftRes (BlockQueryIter.findValue env block k blockFuel 0) with
    | some v => return v
    | none => raise .notFound "target value not found in SST"

/-- The loop of `access_range` over the positions of the blocks to read. -/
def readRange (first last : K) : List Nat → RangeQueryCtx K V → TableM κ K V (RangeQueryCtx K V)
  | [], ctx => return ctx
  | pos :: rest, ctx => do
    let block ← targetRecordBlock env pos
    let targets ← liftRes (BlockQueryIter.collectRange env block first last blockFuel 0)
    let ctx ← liftRes (targets.foldlM (fun ctx (k, v) => ctx.complete env.key k v) ctx)
    readRange first last rest ctx

def accessRange (ctx : RangeQueryCtx K V) : TableM κ K V (RangeQueryCtx K V) := do
  let (first, last) ← unwrapOption (← liftRes (ctx.rangeUncompleted env.key))
  readRange env first last
    (sst.index.filterMap fun entry =>
      if entry.last < first ∨ last < entry.first then none else some entry.pos) ctx

def iter : TableM κ K V SstIter := do
  match sst.index[0]? with
  | none => crash "index out of bounds"
  | some entry =>
    let block ← unwrap (targetRecordBlock env entry.pos)
    return ⟨0, some (block, 0)⟩

/-- Whole-table scan; with a newer `syncId` all records count as synced. -/
def accessScan (syncId : UInt64) (discardUnsynced listening : Bool) :
    TableM κ K V (List (K × ValueEx V)) := do
  let it ← iter env sst
  SstIter.collect env sst ⟨sst.footerMeta.syncId < syncId, discardUnsynced, listening⟩
    (sst.index.length * recordBlockSize + 1) it

end SSTable

end OmegaOsx.MlsDisk
