import Mathlib.Data.Fin.VecNotation
import OmegaOsx.MlsDisk.CryptoBlob
import OmegaOsx.MlsDisk.CryptoChain

/-!
# The edit journal

An `EditJournal` keeps a state of type `S` durable: committed groups of edits are appended as
records to a `CryptoChain`, and a compaction writes the whole state to one of two `CryptoBlob`s,
after which the chain starts again. This module is the code of the journal; its properties are in
`JournalInvariant`, `JournalRecovery`, `JournalCrash` and `CompactPolicy`.

The serialiser is outside the crate; `Postcard.RoundTrips` states what is assumed of it. The random
keys and IVs are drawn by the caller of `format` and from `Crypto.randomIv`, whose next draw the
journal carries in `rng`.
-/

namespace OmegaOsx.MlsDisk

variable {Key Iv Mac E S P : Type}

/-! ## Edits, records and snapshots -/

/-- An edit is an incremental change to a state. -/
class Edit (E S : Type) where
  applyTo : E → S → S

/-- `EditGroup::apply_to`. -/
def applyGroup [Edit E S] (group : List E) (state : S) : S :=
  group.foldl (fun s e => Edit.applyTo e s) state

/-- A journal record. -/
inductive Record (E Mac : Type)
  | version (mac : Mac)
  | edit (group : List E)
  deriving DecidableEq

structure Snapshot (S : Type) where
  state : S
  recoverFrom : Nat
  deriving DecidableEq

/-- `Snapshot::meta_len()`. -/
@[irreducible] def snapshotMetaLen : Nat := 8

/-- The serialiser of records and snapshots. -/
structure Postcard (E S Mac : Type) where
  toSlice : Record E Mac → Bytes
  takeFromBytes : Bytes → Option (Record E Mac × Bytes)
  snapshotToSlice : Snapshot S → Bytes
  snapshotFromBytes : Bytes → Option (Snapshot S)

/-- Records are self-delimiting and a snapshot is read back as it was written. -/
structure Postcard.RoundTrips (ser : Postcard E S Mac) : Prop where
  take_toSlice : ∀ r rest, ser.takeFromBytes (ser.toSlice r ++ rest) = some (r, rest)
  take_nil : ser.takeFromBytes [] = none
  snapshot : ∀ s, ser.snapshotFromBytes (ser.snapshotToSlice s) = some s

/-- `WriteBuf`: the bytes up to its cursor, and its capacity. -/
structure WriteBuf where
  data : Bytes
  capacity : Nat

namespace WriteBuf

def new (capacity : Nat) : WriteBuf := ⟨[], capacity⟩

def write (ser : Postcard E S Mac) (b : WriteBuf) (r : Record E Mac) : Res WriteBuf :=
  if b.capacity - b.data.length < (ser.toSlice r).length then
    fail .outOfDisk "no space for new Record in WriteBuf"
  else
    .ok { b with data := b.data ++ ser.toSlice r }

def clear (b : WriteBuf) : WriteBuf := { b with data := [] }

end WriteBuf

/-- `RecordSlice`: the records read off a byte slice until one fails to deserialise. A record takes
at least one byte, so the length of the slice bounds their number. -/
def recordsUpTo (ser : Postcard E S Mac) : Nat → Bytes → List (Record E Mac)
  | 0, _ => []
  | n + 1, buf =>
    match ser.takeFromBytes buf with
    | none => []
    | some (r, left) => r :: recordsUpTo ser n left

def recordSlice (ser : Postcard E S Mac) (buf : Bytes) : List (Record E Mac) :=
  recordsUpTo ser buf.length buf

/-! ## Compaction policies -/

/-- `CompactPolicy`. -/
class CompactPolicy (P E : Type) where
  onCommitEdits : P → List E → P
  onAppendJournal : P → Nat → P
  shouldCompact : P → Bool
  doneCompact : P → Nat → Res P

structure NeverCompactPolicy where
  deriving DecidableEq

instance : CompactPolicy NeverCompactPolicy E where
  onCommitEdits p _ := p
  onAppendJournal p _ := p
  shouldCompact _ := false
  doneCompact p _ := .ok p

structure DefaultCompactPolicy where
  usedBlocks : Nat
  totalBlocks : Nat
  deriving DecidableEq

instance : CompactPolicy DefaultCompactPolicy E where
  onCommitEdits p _ := p
  onAppendJournal p nblocks := { p with usedBlocks := p.usedBlocks + nblocks }
  shouldCompact p := p.totalBlocks ≤ p.usedBlocks
  doneCompact p compacted := do
    let used ← checkedSub p.usedBlocks compacted
    .ok { p with usedBlocks := used }

/-! ## The disk areas of a journal -/

/-- The blocks of a journal: two areas for snapshots and one for the chain. -/
structure JournalDisk (Iv Mac : Type) where
  snapshotAreas : Fin 2 → BlobArea Mac
  journalArea : List (ChainBlock Iv Mac)

/-- A disk that has not been formatted yet. `carve b` reads its first two times `b` blocks as
snapshot areas and the rest as the journal area. -/
structure RawDisk (Iv Mac : Type) where
  nblocks : Nat
  carve : Nat → JournalDisk Iv Mac
  areas : ∀ b i, ((carve b).snapshotAreas i).nblocks = b
  journal : ∀ b, (carve b).journalArea.length = nblocks - 2 * b

structure EditJournalMeta (Key : Type) where
  snapshotAreaNblocks : Nat
  snapshotAreaKeys : Fin 2 → Key
  journalAreaNblocks : Nat
  journalAreaKey : Key

/-- The number of blocks reserved for a snapshot of at most `stateMaxNbytes` bytes of state. -/
def snapshotBlocks (stateMaxNbytes : Nat) : Nat :=
  (headerNbytes + stateMaxNbytes + snapshotMetaLen + blockSize - 1) / blockSize

/-- `DefaultCompactPolicy::new`. -/
def DefaultCompactPolicy.new (diskNblocks stateMaxNbytes : Nat) : Res DefaultCompactPolicy := do
  let total ← checkedSub diskNblocks (snapshotBlocks stateMaxNbytes * 2)
  .ok ⟨0, total⟩

/-- `DefaultCompactPolicy::from_meta`. -/
def DefaultCompactPolicy.fromMeta (info : EditJournalMeta Key) : DefaultCompactPolicy :=
  ⟨0, info.journalAreaNblocks⟩

/-! ## The snapshot manager -/

/-- There are two snapshots. -/
instance neZeroSnapshots : NeZero 2 := ⟨by decide⟩

structure SnapshotManager (Key Mac S : Type) where
  blobs : Fin 2 → CryptoBlob Key Mac
  latestIndex : Fin 2
  /-- The size of the serialisation buffer. -/
  bufLen : Nat
  snapshot : Snapshot S

namespace SnapshotManager

variable (C : Crypto Key Iv Mac) (ser : Postcard E S Mac)

def create (disk : RawDisk Iv Mac) (keys : Fin 2 → Key) (initState : S) (stateMaxNbytes : Nat) :
    Res (SnapshotManager Key Mac S) :=
  let blobBlocks := snapshotBlocks stateMaxNbytes
  if disk.nblocks ≤ 2 * blobBlocks then
    fail .outOfDisk "the block_set for journal is too small"
  else
    let snapshot : Snapshot S := ⟨initState, 0⟩
    let serialized := ser.snapshotToSlice snapshot
    if blobBlocks * blockSize < serialized.length then
      fail .outOfDisk "serialize snapshot failed"
    else do
      let blob0 ← CryptoBlob.create C ((disk.carve blobBlocks).snapshotAreas 0) (keys 0) serialized
      let blob1 ← CryptoBlob.create C ((disk.carve blobBlocks).snapshotAreas 1) (keys 1) serialized
      .ok ⟨![blob0, blob1], 0, blobBlocks * blockSize, snapshot⟩

/-- Reads the snapshot stored in a blob. A blob that was read has its header cached, whether or not
the payload then deserialises. -/
def readSnapshot (blob : CryptoBlob Key Mac) (bufLen : Nat) :
    Option (Snapshot S) × CryptoBlob Key Mac :=
  match blob.read C bufLen with
  | .ok (payload, blob) => (ser.snapshotFromBytes payload, blob)
  | .error _ => (none, blob)

/-- Repairs the blob that cannot be read from the other one. -/
def repair : Option (Snapshot S) × CryptoBlob Key Mac → Option (Snapshot S) × CryptoBlob Key Mac →
    Res ((Snapshot S × CryptoBlob Key Mac) × (Snapshot S × CryptoBlob Key Mac))
  | (some s0, blob0), (some s1, blob1) => .ok ((s0, blob0), (s1, blob1))
  | (some s0, blob0), (none, blob1) => do
    let blob1 ← blob1.recoverFrom C blob0
    .ok ((s0, blob0), (s0, blob1))
  | (none, blob0), (some s1, blob1) => do
    let blob0 ← blob0.recoverFrom C blob1
    .ok ((s1, blob0), (s1, blob1))
  | (none, _), (none, _) =>
    fail .notFound "both snapshots are unable to read, recover failed"

def recover (disk : JournalDisk Iv Mac) (info : EditJournalMeta Key) :
    Res (SnapshotManager Key Mac S) := do
  let bufLen := info.snapshotAreaNblocks * blockSize
  let read i := readSnapshot C ser
    (CryptoBlob.openArea (info.snapshotAreaKeys i) (disk.snapshotAreas i)) bufLen
  let ((s0, blob0), (s1, blob1)) ← repair C (read 0) (read 1)
  match blob0.versionId, blob1.versionId with
  | some version0, some version1 =>
    -- `DEFAULT_LATEST_INDEX` is 0
    if version0 = version1 then
      .ok ⟨![blob0, blob1], 0, bufLen, s0⟩
    else if version0 + 1 = version1 then
      .ok ⟨![blob0, blob1], 1, bufLen, s1⟩
    else
      fail .invalidArgs "invalid latest snapshot index or version id"
  | _, _ => panicWith "called `Option::unwrap()` on a `None` value"

def persist (m : SnapshotManager Key Mac S) (latest : Snapshot S) :
    Res (SnapshotManager Key Mac S) :=
  let buf := ser.snapshotToSlice latest
  if m.bufLen < buf.length then
    fail .outOfDisk "serialize current state failed"
  else do
    let index := m.latestIndex + 1
    let blob ← (m.blobs index).write C buf
    .ok { m with blobs := Function.update m.blobs index blob, latestIndex := index, snapshot := latest }

def latestMac (m : SnapshotManager Key Mac S) : Res Mac :=
  match (m.blobs m.latestIndex).currentMac with
  | some mac => .ok mac
  | none => panicWith "called `Option::unwrap()` on a `None` value"

end SnapshotManager

/-! ## The journal -/

structure EditJournal (Key Iv Mac E S P : Type) where
  state : S
  chain : CryptoChain Key Iv Mac
  snapshots : SnapshotManager Key Mac S
  policy : P
  currEditGroup : Option (List E)
  writeBuf : WriteBuf
  /-- The number of random IVs drawn so far. -/
  rng : Nat

namespace EditJournal

variable [Inhabited Mac] [Edit E S] [CompactPolicy P E]
variable (C : Crypto Key Iv Mac) (ser : Postcard E S Mac) (j : EditJournal Key Iv Mac E S P)

/-- The disk as the journal has left it. -/
def disk : JournalDisk Iv Mac :=
  ⟨fun i => (j.snapshots.blobs i).area, j.chain.log.storage⟩

/-- `EditJournal::meta`. -/
def info : EditJournalMeta Key where
  snapshotAreaNblocks := (j.snapshots.blobs 0).area.nblocks
  snapshotAreaKeys i := (j.snapshots.blobs i).key
  journalAreaNblocks := j.chain.log.storage.length
  journalAreaKey := j.chain.key

/-- Appends the contents of the write buffer as a block and clears it. -/
def appendBuf : Res (EditJournal Key Iv Mac E S P) := do
  let chain ← j.chain.append C (C.randomIv j.rng) j.writeBuf.data
  .ok { j with
    chain := chain
    rng := j.rng + 1
    policy := CompactPolicy.onAppendJournal E j.policy 1
    writeBuf := j.writeBuf.clear }

def format (disk : RawDisk Iv Mac) (keys : Fin 2 → Key) (chainKey : Key) (rng : Nat) (initState : S)
    (stateMaxNbytes : Nat) (policy : P) : Res (EditJournal Key Iv Mac E S P) := do
  let snapshots ← SnapshotManager.create C ser disk keys initState stateMaxNbytes
  let area := (disk.carve (snapshots.blobs 0).area.nblocks).journalArea
  let chain := CryptoChain.new ((BlockRing.new area).setCursor 0) chainKey
  let mac ← snapshots.latestMac
  let writeBuf ← (WriteBuf.new availBlockSize).write ser (.version mac)
  appendBuf C ⟨initState, chain, snapshots, policy, some [], writeBuf, rng⟩

/-- What `recover` does with one record: a `Version` record of the latest snapshot turns the
application of edits on. -/
def applyRecord (latestMac : Mac) [DecidableEq Mac] : S × Bool → Record E Mac → S × Bool
  | (state, shouldApply), .version mac => (state, shouldApply || mac = latestMac)
  | (state, shouldApply), .edit group =>
    (if shouldApply then applyGroup group state else state, shouldApply)

/-- The loop of `recover` over the blocks of the chain. -/
def replay [DecidableEq Mac] (latestMac : Mac) :
    Nat → Recovery Key Iv Mac → S × Bool → Option (Recovery Key Iv Mac × S)
  | 0, _, _ => none
  | fuel + 1, r, acc =>
    match r.next C with
    | none => some (r, acc.1)
    | some (r, buf) => replay latestMac fuel r ((recordSlice ser buf).foldl (applyRecord latestMac) acc)

/-- `recover`, with at most `fuel` rounds of its loop. -/
def recover [DecidableEq Mac] (fuel : Nat) (disk : JournalDisk Iv Mac) (info : EditJournalMeta Key)
    (policy : P) (rng : Nat) : Res (EditJournal Key Iv Mac E S P) := do
  let snapshots ← SnapshotManager.recover C ser disk info
  let latestMac ← snapshots.latestMac
  let recovery := Recovery.new (BlockRing.new disk.journalArea) info.journalAreaKey
    snapshots.snapshot.recoverFrom
  match replay C ser latestMac fuel recovery (snapshots.snapshot.state, false) with
  | none => panicWith "out of fuel"
  | some (recovery, state) =>
    let chain := recovery.toChain
    .ok ⟨state, { chain with log := chain.log.setCursor chain.stop }, snapshots, policy, some [],
      WriteBuf.new availBlockSize, rng⟩

/-- The chain after a compaction: the blocks before the last one are trimmed. -/
def trimmed (chain : CryptoChain Key Iv Mac) : CryptoChain Key Iv Mac :=
  if 1 < chain.len then chain.trim (chain.stop - 1) else chain

/-- `compact`, and the number of blocks it reclaimed. -/
def compact : Res (EditJournal Key Iv Mac E S P × Nat) :=
  if j.chain.stop ≤ j.chain.start then .ok (j, 0)
  else do
    let snapshots ← j.snapshots.persist C ser ⟨j.state, j.chain.stop⟩
    let mac ← snapshots.latestMac
    let writeBuf ← j.writeBuf.write ser (.version mac)
    let j ← appendBuf C { j with snapshots := snapshots, writeBuf := writeBuf }
    .ok ({ j with chain := trimmed j.chain }, j.chain.len - (trimmed j.chain).len)

/-- `.expect(msg)`. -/
def expect {α : Type} (msg : String) : Res α → Res α
  | .error (.error _ _) => panicWith msg
  | r => r

def appendWriteBufToJournal : Res (EditJournal Key Iv Mac E S P) :=
  if j.writeBuf.data = [] then .ok j
  else do
    let j ← expect "we cannot handle I/O error in journaling gracefully" (appendBuf C j)
    if CompactPolicy.shouldCompact E j.policy then do
      let (j, compacted) ← expect "journal chain compaction failed" (compact C ser j)
      let policy ← CompactPolicy.doneCompact E j.policy compacted
      .ok { j with policy := policy }
    else .ok j

/-- `write`: a record that does not fit in the buffer is written after the buffer was appended to
the chain. -/
def write (j : EditJournal Key Iv Mac E S P) (r : Record E Mac) :
    Res (EditJournal Key Iv Mac E S P) :=
  match j.writeBuf.write ser r with
  | .ok writeBuf => .ok { j with writeBuf := writeBuf }
  | .error _ => do
    let j ← appendWriteBufToJournal C ser j
    match j.writeBuf.write ser r with
    | .ok writeBuf => .ok { j with writeBuf := writeBuf }
    | .error _ => panicWith "the write buffer must have enough free space"

def add (edit : E) : EditJournal Key Iv Mac E S P :=
  { j with currEditGroup := some (j.currEditGroup.getD [] ++ [edit]) }

def commit : Res (EditJournal Key Iv Mac E S P) :=
  match j.currEditGroup with
  | none => .ok j
  | some [] => .ok { j with currEditGroup := none }
  | some (e :: es) => do
    let j ← write C ser { j with currEditGroup := none } (.edit (e :: es))
    .ok { j with
      state := applyGroup (e :: es) j.state
      policy := CompactPolicy.onCommitEdits j.policy (e :: es) }

def flush : Res (EditJournal Key Iv Mac E S P) :=
  appendWriteBufToJournal C ser j

def abort : EditJournal Key Iv Mac E S P :=
  { j with currEditGroup := j.currEditGroup.map fun _ => [] }

/-- A call on the journal. -/
inductive Op (E : Type)
  | add (edit : E)
  | commit
  | abort
  | flush
  deriving DecidableEq

def exec : Op E → Res (EditJournal Key Iv Mac E S P)
  | .add edit => .ok (j.add edit)
  | .commit => j.commit C ser
  | .abort => .ok j.abort
  | .flush => j.flush C ser

end EditJournal

end OmegaOsx.MlsDisk
