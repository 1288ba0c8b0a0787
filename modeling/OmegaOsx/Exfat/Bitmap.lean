import OmegaOsx.Exfat.Fat

/-!
# The allocation bitmap

`set_range` and the two searches for unused clusters: bit by bit, and byte by byte for more clusters
than a byte has bits.
-/

namespace OmegaOsx.Exfat

open List ExfatBitmap Nat Bool Option Except

open MlsDisk (bind_ok guard_ok ite_ok)

variable {bitmap : ExfatBitmap} {index : Nat} {bit : Bool}

namespace ExfatBitmap

def isUsed (bitmap : ExfatBitmap) (bit : Nat) : Res Bool :=
  match bitmap.bitvec[bit]? with
  | some used => .ok used
  | none => panicWith "called `Option::unwrap()` on a `None` value"

/-- `leading_zeros` of a byte. -/
def leadingZeros (byte : List Bool) : Nat := (byte.reverse.takeWhile (! ·)).length

/-- `trailing_zeros` of a byte. -/
def trailingZeros (byte : List Bool) : Nat := (byte.takeWhile (! ·)).length

/-- A byte of `as_raw_slice`. -/
def byte (bitmap : ExfatBitmap) (index : Nat) : Res (List Bool) :=
  if 8 * index + 8 ≤ bitmap.bitvec.length then .ok ((bitmap.bitvec.drop (8 * index)).take 8)
  else panicWith "index out of bounds"

/-- The body of `set_range` for one cluster. -/
def setBit (bitmap : ExfatBitmap) (index : Nat) (bit : Bool) : Res ExfatBitmap := do
  let oldBit ← bitmap.isUsed index
  let bitvec := bitmap.bitvec.set index bit
  if !oldBit && bit then
    let free ← checkedSub bitmap.numFreeCluster 1
    pure { bitmap with bitvec, numFreeCluster := free }
  else if oldBit && !bit then
    let free ← add32 bitmap.numFreeCluster 1
    pure { bitmap with bitvec, numFreeCluster := free }
  else pure { bitmap with bitvec }

theorem isUsed_ok {bit : Nat} {used : Bool} : bitmap.isUsed bit = .ok used ↔ bitmap.bitvec[bit]? = some used := by
  unfold isUsed
  split
  · next eq =>
    rw [eq]
    exact ⟨fun h => congrArg some (ok.inj h), fun h => congrArg ok (some.inj h)⟩
  · next eq =>
    rw [eq]
    exact ⟨nofun, nofun⟩

variable {bitmap' : ExfatBitmap} (h : bitmap.setBit index bit = .ok bitmap')
include h

theorem setBit_ok :
    ∃ old, bitmap.bitvec[index]? = some old ∧ bitmap'.bitvec = bitmap.bitvec.set index bit ∧
      bitmap'.numFreeCluster + (if !old && bit then 1 else 0) =
        bitmap.numFreeCluster + (if old && !bit then 1 else 0) := by
  obtain ⟨old, read, h⟩ := bind_ok.mp h
  refine ⟨old, isUsed_ok.mp read, ?_⟩
  split at h
  · next taken =>
    obtain ⟨free, counted, h⟩ := bind_ok.mp h
    obtain ⟨pos, rfl⟩ := checkedSub_ok.mp counted
    cases h
    cases old <;> cases bit <;> cases taken
    exact ⟨rfl, Nat.sub_add_cancel pos⟩
  · split at h
    · next given =>
      obtain ⟨free, counted, h⟩ := bind_ok.mp h
      obtain ⟨-, rfl⟩ := add32_ok.mp counted
      cases h
      cases old <;> cases bit <;> cases given
      exact ⟨rfl, rfl⟩
    · next kept given =>
      cases h
      rw [if_neg kept, if_neg given]
      exact ⟨rfl, rfl⟩

theorem length_setBit : bitmap'.bitvec.length = bitmap.bitvec.length := by
  obtain ⟨-, -, bits, -⟩ := setBit_ok h
  rw [bits, length_set]

end ExfatBitmap

variable {start count numClusters found unitIndex unitOffset : Nat} {fs : ExfatFs}

namespace ExfatFs

def withBitmap (fs : ExfatFs) (bitmap : ExfatBitmap)
    (size : bitmap.bitvec.length = fs.bitmap.bitvec.length) : ExfatFs :=
  { fs with bitmap, covers := size ▸ fs.covers }

/-- Sets the bit of one cluster. -/
def setCluster (fs : ExfatFs) (cluster : Nat) (bit : Bool) : Res ExfatFs :=
  match h : fs.bitmap.setBit (cluster - EXFAT_RESERVED_CLUSTERS) bit with
  | .ok bitmap => .ok (fs.withBitmap bitmap (ExfatBitmap.length_setBit h))
  | .error e => .error e

/-- Only whether the bitmap's own chain leads to the place matters here: the bytes on disk are not
read again. -/
def writeToDisk (fs : ExfatFs) (start : Nat) : Res Unit := do
  let startByteOff := (start - EXFAT_RESERVED_CLUSTERS) / 8
  let (chain, _) ← fs.bitmap.chain.walkToClusterAtOffset fs startByteOff
  let _ ← chain.physicalClusterStartOffset fs
  pure ()

/-- Sets the bits of the `count` clusters from `start` on. -/
def setRange (fs : ExfatFs) (start count : Nat) (bit : Bool) : Res ExfatFs := do
  if fs.superBlock.isClusterRangeValid start (start + count) = false then
    fail .einval "invalid cluster ranges."
  else
    let fs ← (List.range' start count).foldlM (fun fs cluster => fs.setCluster cluster bit) fs
    fs.writeToDisk start
    pure fs

def setUsed (fs : ExfatFs) (cluster : Nat) : Res ExfatFs := fs.setRange cluster 1 true

def setUnused (fs : ExfatFs) (cluster : Nat) : Res ExfatFs := fs.setRange cluster 1 false

def setRangeUsed (fs : ExfatFs) (start count : Nat) : Res ExfatFs := fs.setRange start count true

def setRangeUnused (fs : ExfatFs) (start count : Nat) : Res ExfatFs := fs.setRange start count false

def isClusterRangeUnused (fs : ExfatFs) (start count : Nat) : Res Bool := do
  if fs.superBlock.isClusterRangeValid start (start + count) = false then
    fail .einval "invalid cluster ranges."
  else
    pure ((List.range' start count).all fun cluster =>
      fs.bitmap.bitvec[cluster - EXFAT_RESERVED_CLUSTERS]? == some false)

/-! ### Bit by bit -/

/-- The inner loop: counts unused bits from `index` on, at most `fuel` of them. -/
def countUnused (bitmap : ExfatBitmap) (endIndex : Nat) : Nat → Nat → Nat → Res (Nat × Nat)
  | 0, index, cnt => .ok (index, cnt)
  | fuel + 1, index, cnt =>
    if index < endIndex then do
      if ← bitmap.isUsed index then pure (index, cnt)
      else countUnused bitmap endIndex fuel (index + 1) (cnt + 1)
    else .ok (index, cnt)

/-- The outer loop. A round moves the index on, so as many rounds as there are bits are enough. -/
def searchBits (bitmap : ExfatBitmap) (numClusters endIndex searchEndIndex : Nat) :
    Nat → Nat → Res Nat
  | 0, _ => fail .enospc ""
  | fuel + 1, curIndex =>
    if curIndex < searchEndIndex then do
      if ← bitmap.isUsed curIndex then
        searchBits bitmap numClusters endIndex searchEndIndex fuel (curIndex + 1)
      else
        let (index, cnt) ← countUnused bitmap endIndex numClusters curIndex 0
        if numClusters ≤ cnt then pure (curIndex + EXFAT_RESERVED_CLUSTERS)
        else searchBits bitmap numClusters endIndex searchEndIndex fuel (index + 1)
    else fail .enospc ""

/-- The first cluster of a range of unused clusters. -/
def findNextUnusedClusterRangeByBits (fs : ExfatFs) (searchStartCluster numClusters : Nat) : Res Nat :=
  if fs.superBlock.isClusterRangeValid searchStartCluster (searchStartCluster + numClusters) = false then
    fail .enospc "free contiguous clusters not available."
  else
    let endIndex := fs.superBlock.numClusters - EXFAT_RESERVED_CLUSTERS
    let searchEndIndex := endIndex - numClusters + 1
    searchBits fs.bitmap numClusters endIndex searchEndIndex searchEndIndex
      (searchStartCluster - EXFAT_RESERVED_CLUSTERS)

def findNextUnusedCluster (fs : ExfatFs) (cluster : Nat) : Res Nat :=
  fs.findNextUnusedClusterRangeByBits cluster 1

/-! ### Byte by byte -/

/-- Moves to the first byte whose last bit is unused. Bytes end before their indices reach
`totalClusterNum`. -/
def adjustHeadPos (bitmap : ExfatBitmap) : Nat → Nat → Nat → Res (Nat × Nat)
  | 0, unitIndex, unitOffset => .ok (unitIndex, unitOffset)
  | fuel + 1, unitIndex, unitOffset => do
    let leading := ExfatBitmap.leadingZeros (← bitmap.byte unitIndex)
    if leading = 0 then adjustHeadPos bitmap fuel (unitIndex + 1) 0
    else pure (unitIndex, max unitOffset (8 - leading))

/-- Whether the `midUnitNum` bytes after a byte are zero. -/
def checkMidUnits (bitmap : ExfatBitmap) (unitIndex : Nat) : Nat → Res Bool
  | 0 => .ok true
  | midUnitNum + 1 => do
    if ← checkMidUnits bitmap unitIndex midUnitNum then
      pure (! (← bitmap.byte (unitIndex + midUnitNum + 1)).any id)
    else pure false

/-- The number of bytes that hold bits of clusters. -/
def validBytesNum (completeUnitNum restClusterNum : Nat) : Nat :=
  if 0 < restClusterNum then completeUnitNum + 1 else completeUnitNum

/-- The byte with the last bits of a range; bits after the last cluster count as used. -/
def tailByte (bitmap : ExfatBitmap) (completeUnitNum restClusterNum tailIdx : Nat) : Res (List Bool) := do
  let mask := (List.range 8).map fun bit => tailIdx == completeUnitNum && restClusterNum ≤ bit
  if tailIdx < validBytesNum completeUnitNum restClusterNum then
    pure (List.zipWith (· || ·) mask (← bitmap.byte tailIdx))
  else pure mask

/-- The loop over bytes; a round moves the byte on. -/
def searchUnits (bitmap : ExfatBitmap) (numClusters totalClusterNum : Nat) : Nat → Nat → Nat → Res Nat
  | 0, _, _ => fail .enospc ""
  | fuel + 1, unitIndex, unitOffset =>
    let completeUnitNum := totalClusterNum / 8
    let restClusterNum := totalClusterNum % 8
    if unitIndex < completeUnitNum then do
      let (unitIndex, unitOffset) ←
        adjustHeadPos bitmap (totalClusterNum - unitIndex) unitIndex unitOffset
      let headClusterNum ← checkedSub 8 unitOffset
      let midUnitNum := (numClusters - headClusterNum) / 8
      let tailClusterNum := (numClusters - headClusterNum) % 8
      if completeUnitNum ≤ unitIndex + midUnitNum then fail .enospc ""
      else if ← checkMidUnits bitmap unitIndex midUnitNum then
        if tailClusterNum = 0 then pure (unitIndex * 8 + unitOffset + EXFAT_RESERVED_CLUSTERS)
        else
          let tailIdx := unitIndex + midUnitNum + 1
          let trailing := ExfatBitmap.trailingZeros (← tailByte bitmap completeUnitNum restClusterNum tailIdx)
          if trailing < tailClusterNum then
            searchUnits bitmap numClusters totalClusterNum fuel tailIdx (trailing + 1)
          else pure (unitIndex * 8 + unitOffset + EXFAT_RESERVED_CLUSTERS)
      else searchUnits bitmap numClusters totalClusterNum fuel (unitIndex + 1) 0
    else fail .enospc ""

def findNextUnusedClusterRange (fs : ExfatFs) (searchStartCluster numClusters : Nat) : Res Nat :=
  if fs.superBlock.isClusterRangeValid searchStartCluster (searchStartCluster + numClusters) = false then
    fail .enospc ""
  else if numClusters ≤ 8 then fs.findNextUnusedClusterRangeByBits searchStartCluster numClusters
  else
    let startClusterIndex := searchStartCluster - EXFAT_RESERVED_CLUSTERS
    let totalClusterNum := fs.superBlock.numClusters - EXFAT_RESERVED_CLUSTERS
    searchUnits fs.bitmap numClusters totalClusterNum (totalClusterNum / 8) (startClusterIndex / 8)
      (startClusterIndex % 8)

def numFreeClusters (fs : ExfatFs) : Nat := fs.bitmap.numFreeCluster

/-! ### What the functions do -/

/-- A cluster of the heap. -/
def InHeap (fs : ExfatFs) (cluster : Nat) : Prop :=
  EXFAT_RESERVED_CLUSTERS ≤ cluster ∧ cluster < fs.superBlock.numClusters

end ExfatFs

end OmegaOsx.Exfat
