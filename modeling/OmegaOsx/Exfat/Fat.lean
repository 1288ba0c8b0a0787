import OmegaOsx.MlsDisk.Basic

/-!
# Clusters of an exFAT volume

The FAT, the allocation bitmap and the cluster chains of one file system, as `fat.rs`, `bitmap.rs` and
`fs.rs` compute them. There are no I/O failures: the metadata cache and the cache of FAT entries are
transparent, so the FAT is a function from clusters to raw entries. A chain is its first cluster, its
number of clusters and its flags; whether a call syncs what it writes makes no difference here.

A call that returns an error gives no state: the calls of a run are those that succeed.
-/

namespace OmegaOsx.Exfat

inductive Errno
  | einval
  | eio
  | enospc
  | eisdir
  | enotdir
  | enametoolong
  | enoent
  | enotempty
  deriving DecidableEq, Repr

inductive Fault
  | errno (errno : Errno) (msg : String)
  | panic (msg : String)
  deriving DecidableEq, Repr

abbrev Res (α : Type) := Except Fault α

def fail {α : Type} (errno : Errno) (msg : String) : Res α := .error (.errno errno msg)

def panicWith {α : Type} (msg : String) : Res α := .error (.panic msg)

/-- Addition of two `u32`. -/
def add32 (a b : Nat) : Res Nat :=
  if a + b < 2 ^ 32 then .ok (a + b) else panicWith "attempt to add with overflow"

theorem add32_ok {a b c : Nat} : add32 a b = .ok c ↔ a + b < 2 ^ 32 ∧ c = a + b := by
  unfold add32 panicWith
  split <;> grind

def checkedSub (a b : Nat) : Res Nat :=
  if b ≤ a then .ok (a - b) else panicWith "attempt to subtract with overflow"

theorem checkedSub_ok {a b c : Nat} : checkedSub a b = .ok c ↔ b ≤ a ∧ c = a - b := by
  unfold checkedSub panicWith
  split <;> grind

/-- Cluster 0, 1 are reserved, the first cluster is 2 in the cluster heap. -/
def EXFAT_RESERVED_CLUSTERS : Nat := 2

def EXFAT_FIRST_CLUSTER : Nat := 2

/-! ### The super block -/

/-- The geometry of a mounted volume, with what `read_super_block` has checked of it. -/
structure ExfatSuperBlock where
  numClusters : Nat
  sectorSizeBits : Nat
  sectPerClusterBits : Nat
  dataStartSector : Nat
  fat1StartSector : Nat
  numFatSectors : Nat
  /-- Of the boot sector. -/
  numFats : Nat
  /-- `cluster_count + EXFAT_RESERVED_CLUSTERS`, in a `u32`. -/
  reserved : EXFAT_RESERVED_CLUSTERS ≤ numClusters
  width : numClusters < 2 ^ 32
  fats : numFats = 1 ∨ numFats = 2
  sectorBits : 9 ≤ sectorSizeBits ∧ sectorSizeBits ≤ 12
  clusterBits : sectPerClusterBits + sectorSizeBits ≤ 25
  fatLength : numClusters * 4 ≤ numFatSectors * 2 ^ sectorSizeBits
  dataStart : fat1StartSector + numFatSectors * numFats ≤ dataStartSector

namespace ExfatSuperBlock

variable (sb : ExfatSuperBlock)

def sectorSize : Nat := 2 ^ sb.sectorSizeBits

def sectPerCluster : Nat := 2 ^ sb.sectPerClusterBits

def clusterSize : Nat := 2 ^ (sb.sectPerClusterBits + sb.sectorSizeBits)

def isValidCluster (cluster : Nat) : Bool :=
  EXFAT_RESERVED_CLUSTERS ≤ cluster && cluster ≤ sb.numClusters

/-- Whether the clusters from `start` up to `stop` are in the heap. -/
def isClusterRangeValid (start stop : Nat) : Bool :=
  EXFAT_RESERVED_CLUSTERS ≤ start && stop ≤ sb.numClusters

end ExfatSuperBlock

/-! ### Entries of the FAT -/

inductive FatValue
  | free
  | next (cluster : Nat)
  | bad
  | endOfChain
  deriving DecidableEq, Repr

def EXFAT_EOF_CLUSTER : Nat := 0xFFFFFFFF

def EXFAT_BAD_CLUSTER : Nat := 0xFFFFFFF7

def EXFAT_FREE_CLUSTER : Nat := 0

namespace FatValue

/-- `From<ClusterID> for FatValue`. -/
def ofRaw (value : Nat) : FatValue :=
  if value = EXFAT_BAD_CLUSTER then .bad
  else if value = EXFAT_FREE_CLUSTER then .free
  else if value = EXFAT_EOF_CLUSTER then .endOfChain
  else .next value

/-- `From<FatValue> for ClusterID`. -/
def toRaw : FatValue → Nat
  | .free => EXFAT_FREE_CLUSTER
  | .endOfChain => EXFAT_EOF_CLUSTER
  | .bad => EXFAT_BAD_CLUSTER
  | .next x => x

end FatValue

/-! ### Chains -/

abbrev FatChainFlags := BitVec 8

/-- An associated allocation of clusters is possible. -/
def ALLOC_POSSIBLE : FatChainFlags := 0x01

/-- The allocated clusters are contiguous and the FAT is irrelevant. -/
def FAT_CHAIN_NOT_IN_USE : FatChainFlags := 0x03

structure ExfatChain where
  current : Nat
  numClusters : Nat
  flags : FatChainFlags
  deriving DecidableEq, Repr

variable (chain : ExfatChain)

def ExfatChain.fatInUse : Bool :=
  chain.flags &&& FAT_CHAIN_NOT_IN_USE != FAT_CHAIN_NOT_IN_USE

/-- The allocation bitmap: a byte is its eight bits, lowest first. -/
structure ExfatBitmap where
  chain : ExfatChain
  bitvec : List Bool
  numFreeCluster : Nat

structure ExfatFs where
  superBlock : ExfatSuperBlock
  /-- Raw entries. -/
  fat : Nat → Nat
  bitmap : ExfatBitmap
  /-- `load_bitmap_from_dentry` reads the bit of every cluster. -/
  covers : superBlock.numClusters - EXFAT_RESERVED_CLUSTERS ≤ bitmap.bitvec.length

namespace ExfatFs

def readNextFat (fs : ExfatFs) (cluster : Nat) : Res FatValue :=
  if fs.superBlock.isValidCluster cluster = false then fail .eio "invalid access to FAT"
  else .ok (.ofRaw (fs.fat cluster))

def writeNextFat (fs : ExfatFs) (cluster : Nat) (value : FatValue) : ExfatFs :=
  { fs with fat := Function.update fs.fat cluster value.toRaw }

end ExfatFs

namespace ExfatChain

/-- Follows the FAT for a number of steps. -/
def walkFat (fs : ExfatFs) : Nat → Nat → Res Nat
  | 0, cluster => .ok cluster
  | steps + 1, cluster => do
    match ← fs.readNextFat cluster with
    | .next nextFat => walkFat fs steps nextFat
    | _ => fail .eio "invalid access to FAT cluster"

variable (fs : ExfatFs)

/-- The cluster a walk leads to. -/
def walkCluster (steps : Nat) : Res Nat :=
  if !chain.fatInUse then add32 chain.current steps else walkFat fs steps chain.current

def walk (steps : Nat) : Res ExfatChain :=
  if chain.numClusters < steps then fail .einval "invalid walking steps for FAT chain"
  else do
    let cluster ← chain.walkCluster fs steps
    pure ⟨cluster, chain.numClusters - steps, chain.flags⟩

/-- The chain at the cluster of a byte offset, and the offset in that cluster. -/
def walkToClusterAtOffset (offset : Nat) : Res (ExfatChain × Nat) := do
  let clusterSize := fs.superBlock.clusterSize
  let result ← chain.walk fs (offset / clusterSize)
  pure (result, offset % clusterSize)

def physicalClusterStartOffset : Res Nat := do
  let clusterNum ← checkedSub chain.current EXFAT_RESERVED_CLUSTERS
  pure (clusterNum * fs.superBlock.clusterSize + fs.superBlock.dataStartSector * fs.superBlock.sectorSize)

/-- The cluster sequence of a chain: where walking takes. -/
def clusters : Res (List Nat) :=
  (List.range chain.numClusters).mapM fun steps => do
    let result ← chain.walk fs steps
    pure result.current

end ExfatChain

end OmegaOsx.Exfat
