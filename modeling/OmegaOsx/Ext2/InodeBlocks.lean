import OmegaOsx.Ext2.BlockPtr
import OmegaOsx.Ext2.Xattr

/-!
# The blocks of an inode

The resizing of `InodeImpl` in `ext2/inode.rs`, with `IndirectBlockCache` and `DeviceRangeReader`. A file grows
by ranges of blocks, each within one last block of pointers, with the indirect blocks its first block needs; it
shrinks from its end by such ranges. Fast symbolic links, which have a size and no blocks, are left out.

Reading and writing a device block does not fail. A block of the cache that is not dirty is what the device
holds, so that only the dirty ones are kept, and writing them back changes nothing that can be read.
-/

set_option linter.dupNamespace false

namespace OmegaOsx.Ext2

/-- The indirect blocks: the dirty ones in the cache, the others on the device. -/
structure IndirectBlockCache where
  cache : Nat → Option (Nat → Nat)
  disk : Nat → Nat → Nat

namespace IndirectBlockCache

variable (c : IndirectBlockCache)

def find (bid : Nat) : Nat → Nat := (c.cache bid).getD (c.disk bid)

def insert (bid : Nat) (block : Nat → Nat) : IndirectBlockCache :=
  { c with cache := Function.update c.cache bid (some block) }

def remove (bid : Nat) : IndirectBlockCache :=
  { c with cache := Function.update c.cache bid none }

/-- `write_bid` on the block that `find_mut` returns. -/
def writeBid (block idx bid : Nat) : IndirectBlockCache :=
  c.insert block (Function.update (c.find block) idx bid)

/-- Writes consecutive block numbers. A slot beyond the frame is an error. -/
def writeBids : Nat → IndirectBlockCache → Nat → Nat → Nat → Outcome IndirectBlockCache Unit
  | 0, c, _, _, _ => (.ok (), c)
  | n + 1, c, block, idx, bid =>
    if MAX_INDIRECT_BLOCKS ≤ idx then (.error ⟨.einval, none⟩, c)
    else writeBids n (c.writeBid block idx bid) block (idx + 1) (bid + 1)

def evictAll : IndirectBlockCache where
  cache _ := none
  disk := c.find

end IndirectBlockCache

/-- The parts of `InodeImpl` and its descriptor that resizing works on. The two copies of the block pointers are
always written together. -/
structure InodeImpl where
  fs : Ext2
  /-- `block_group_idx` of the inode. -/
  groupIdx : Nat
  size : Nat
  blocksCount : Nat
  blockPtrs : Nat → Nat
  indirectBlocks : IndirectBlockCache
  lastAllocDeviceBid : Option Nat

/-- The number of new indirect blocks that a range starting with the block needs. -/
def BidPath.indirectCnt : BidPath → Nat
  | direct _ => 0
  | indirect 0 => 1
  | indirect _ => 0
  | dbIndirect 0 0 => 2
  | dbIndirect _ 0 => 1
  | dbIndirect _ _ => 0
  | tbIndirect 0 0 0 => 3
  | tbIndirect _ 0 0 => 2
  | tbIndirect _ _ 0 => 1
  | tbIndirect _ _ _ => 0

def sizeToBlocks (size : Nat) : Nat := (size + (BLOCK_SIZE - 1)) / BLOCK_SIZE % 2 ^ 32

namespace Ext2

/-- Frees the indirect blocks of an allocation that failed. -/
def freeEach (fs : Ext2) : List Nat → Res Ext2
  | [] => .ok fs
  | bid :: bids => do
    let fs ← fs.freeBlocksUnwrap bid (bid + 1)
    fs.freeEach bids

/-- The loop that allocates indirect blocks and at least one block after them. -/
def allocIndirect (groupIdx indirectCnt : Nat) :
    Nat → Ext2 → Nat → List Nat → Res (Option (List Nat × Nat × Nat) × Ext2)
  | 0, fs, _, _ => .ok (none, fs)
  | fuel + 1, fs, totalCnt, indirectBids => do
    let (range, fs) ← fs.allocBlocks groupIdx totalCnt
    match range with
    | none => do
      let fs ← fs.freeEach indirectBids
      pure (none, fs)
    | some (start, stop) => do
      require (stop - start ≤ totalCnt) "attempt to subtract with overflow"
      let taken := min (indirectCnt - indirectBids.length) (stop - start)
      let indirectBids := indirectBids ++ List.range' start taken
      if start + taken < stop then pure (some (indirectBids, start + taken, stop), fs)
      else allocIndirect groupIdx indirectCnt fuel fs (totalCnt - (stop - start)) indirectBids

end Ext2

namespace InodeImpl

variable (s : InodeImpl)

def setPtr (idx bid : Nat) : InodeImpl := { s with blockPtrs := Function.update s.blockPtrs idx bid }

/-- `blocks_count` of the descriptor. -/
def descBlocksCount : Res Nat := do
  require (sizeToBlocks s.size ≤ s.blocksCount) "assertion failed: blocks <= self.blocks_count"
  pure (sizeToBlocks s.size)

/-- The group to start an allocation with. -/
def allocGroupIdx : Nat :=
  match s.lastAllocDeviceBid with
  | none => s.groupIdx
  | some id => (id + 1) / s.fs.blocksPerGroup

/-! ### Expanding -/

def setDirects : Nat → (Nat → Nat) → Nat → Nat → Res (Nat → Nat)
  | 0, ptrs, _, _ => .ok ptrs
  | n + 1, ptrs, idx, bid => do
    require (idx < MAX_DIRECT_BLOCKS) "assertion failed: DIRECT_RANGE.contains(&idx)"
    setDirects n (Function.update ptrs idx bid) (idx + 1) (bid + 1)

/-- Fills slots of an indirect block. -/
def setBids (block idx start stop : Nat) : Outcome InodeImpl Unit :=
  let (result, indirectBlocks) := IndirectBlockCache.writeBids (stop - start) s.indirectBlocks block idx start
  (result, { s with indirectBlocks })

def setDeviceRange (startBid start stop : Nat) : Res (Outcome InodeImpl Unit) := do
  let path ← BidPath.ofBid startBid
  match path with
  | .direct idx => do
    let blockPtrs ← setDirects (stop - start) s.blockPtrs idx start
    pure (.ok (), { s with blockPtrs })
  | .indirect idx => do
    let indirectBid := s.blockPtrs INDIRECT
    require (indirectBid ≠ 0) "assertion failed: indirect_bid != 0"
    pure (s.setBids indirectBid idx start stop)
  | .dbIndirect lvl1 lvl2 => do
    let dbIndirectBid := s.blockPtrs DB_INDIRECT
    require (dbIndirectBid ≠ 0) "assertion failed: db_indirect_bid != 0"
    let lvl1IndirectBid := s.indirectBlocks.find dbIndirectBid lvl1
    require (lvl1IndirectBid ≠ 0) "assertion failed: lvl1_indirect_bid != 0"
    pure (s.setBids lvl1IndirectBid lvl2 start stop)
  | .tbIndirect lvl1 lvl2 lvl3 => do
    let tbIndirectBid := s.blockPtrs TB_INDIRECT
    require (tbIndirectBid ≠ 0) "assertion failed: tb_indirect_bid != 0"
    let lvl1IndirectBid := s.indirectBlocks.find tbIndirectBid lvl1
    require (lvl1IndirectBid ≠ 0) "assertion failed: lvl1_indirect_bid != 0"
    let lvl2IndirectBid := s.indirectBlocks.find lvl1IndirectBid lvl2
    require (lvl2IndirectBid ≠ 0) "assertion failed: lvl2_indirect_bid != 0"
    pure (s.setBids lvl2IndirectBid lvl3 start stop)

/-- One round of `set_indirect_bids`, behind the insertion of the zeroed block. -/
def linkIndirectBid (path : BidPath) (indirectBid : Nat) : Res InodeImpl :=
  match path with
  | .indirect idx => do
    require (idx = 0) "assertion `left == right` failed"
    pure (s.setPtr INDIRECT indirectBid)
  | .dbIndirect lvl1 lvl2 => do
    require (lvl2 = 0) "assertion `left == right` failed"
    pure (if s.blockPtrs DB_INDIRECT = 0 then s.setPtr DB_INDIRECT indirectBid
      else { s with indirectBlocks := s.indirectBlocks.writeBid (s.blockPtrs DB_INDIRECT) lvl1 indirectBid })
  | .tbIndirect lvl1 lvl2 lvl3 => do
    require (lvl3 = 0) "assertion `left == right` failed"
    let tbIndirectBid := s.blockPtrs TB_INDIRECT
    let lvl1IndirectBid := s.indirectBlocks.find tbIndirectBid lvl1
    pure (if tbIndirectBid = 0 then s.setPtr TB_INDIRECT indirectBid
      else if lvl1IndirectBid = 0 then
        { s with indirectBlocks := s.indirectBlocks.writeBid tbIndirectBid lvl1 indirectBid }
      else { s with indirectBlocks := s.indirectBlocks.writeBid lvl1IndirectBid lvl2 indirectBid })
  | .direct _ => panicWith "explicit panic"

/-- The loop of `set_indirect_bids`. -/
def setIndirectLoop (path : BidPath) : InodeImpl → List Nat → Res InodeImpl
  | s, [] => .ok s
  | s, indirectBid :: indirectBids => do
    let s ← { s with
      indirectBlocks := s.indirectBlocks.insert indirectBid fun _ => 0 }.linkIndirectBid path indirectBid
    setIndirectLoop path s indirectBids

def setIndirectBids (bid : Nat) (indirectBids : List Nat) : Res InodeImpl := do
  require (1 ≤ indirectBids.length ∧ indirectBids.length ≤ 3)
    "assertion failed: (1..=3).contains(&indirect_bids.len())"
  let path ← BidPath.ofBid bid
  setIndirectLoop path s indirectBids

def freeIndirect (bid : Nat) : Res InodeImpl := do
  let fs ← s.fs.freeBlocksUnwrap bid (bid + 1)
  pure { s with fs, indirectBlocks := s.indirectBlocks.remove bid }

def freeIndirectIf (c : Prop) [Decidable c] (bid : Nat) : Res InodeImpl :=
  if c then s.freeIndirect bid else .ok s

/-- The pointer is cleared and its block freed. -/
def dropIndirectIf (c : Prop) [Decidable c] (idx bid : Nat) : Res InodeImpl :=
  if c then (s.setPtr idx 0).freeIndirect bid else .ok s

/-- The lower levels of a treble indirect block that are freed with their first block. -/
def freeTbLower (lvl1IndirectBid lvl2 : Nat) : Res InodeImpl :=
  if lvl1IndirectBid = 0 then .ok s
  else do
    let lvl2IndirectBid := s.indirectBlocks.find lvl1IndirectBid lvl2
    let s ← s.freeIndirectIf (lvl2IndirectBid ≠ 0) lvl2IndirectBid
    s.freeIndirectIf (lvl2 = 0) lvl1IndirectBid

/-- `free_indirect_blocks_required_by`, which sets the pointer to the indirect block to the number of the block of
the file. -/
def freeIndirectBlocksRequiredBy (bid : Nat) : Res InodeImpl := do
  let path ← BidPath.ofBid bid
  if path.lastLvlIdx ≠ 0 then pure s
  else if bid = 0 then pure s
  else match path with
    | .indirect _ =>
      let indirectBid := s.blockPtrs INDIRECT
      if indirectBid = 0 then pure s else (s.setPtr INDIRECT bid).freeIndirect indirectBid
    | .dbIndirect lvl1 _ =>
      let dbIndirectBid := s.blockPtrs DB_INDIRECT
      if dbIndirectBid = 0 then pure s
      else do
        let lvl1IndirectBid := s.indirectBlocks.find dbIndirectBid lvl1
        let s ← s.freeIndirectIf (lvl1IndirectBid ≠ 0) lvl1IndirectBid
        s.dropIndirectIf (lvl1 = 0) DB_INDIRECT dbIndirectBid
    | .tbIndirect lvl1 lvl2 _ =>
      let tbIndirectBid := s.blockPtrs TB_INDIRECT
      if tbIndirectBid = 0 then pure s
      else do
        let s ← s.freeTbLower (s.indirectBlocks.find tbIndirectBid lvl1) lvl2
        s.dropIndirectIf (lvl2 = 0 ∧ lvl1 = 0) TB_INDIRECT tbIndirectBid
    | .direct _ => panicWith "explicit panic"

/-- What `try_expand_blocks` records of a new range. -/
def recordRange (startBid start stop : Nat) : InodeImpl :=
  { s with blocksCount := startBid + (stop - start), lastAllocDeviceBid := some (stop - 1) }

/-- `try_expand_blocks` where no indirect block is needed. -/
def expandInBlock (startBid maxCnt : Nat) : Res (Outcome InodeImpl Nat) := do
  let (range, fs) ← s.fs.allocBlocks s.allocGroupIdx maxCnt
  match range with
  | none => pure (.error ⟨.enospc, none⟩, { s with fs })
  | some (start, stop) => do
    let (result, s) ← { s with fs }.setDeviceRange startBid start stop
    match result with
    | .error e => do
      let fs ← s.fs.freeBlocksUnwrap start stop
      pure (.error e, { s with fs })
    | .ok _ => pure (.ok (stop - start), s.recordRange startBid start stop)

/-- `try_expand_blocks` with indirect blocks. -/
def expandWithIndirect (startBid maxCnt indirectCnt : Nat) : Res (Outcome InodeImpl Nat) := do
  let (allocated, fs) ← Ext2.allocIndirect s.allocGroupIdx indirectCnt (indirectCnt + 1) s.fs
    (maxCnt + indirectCnt) []
  match allocated with
  | none => pure (.error ⟨.enospc, none⟩, { s with fs })
  | some (indirectBids, start, stop) => do
    let s ← { s with fs }.setIndirectBids startBid indirectBids
    let (result, s) ← s.setDeviceRange startBid start stop
    match result with
    | .error e => do
      let fs ← s.fs.freeBlocksUnwrap start stop
      let s ← { s with fs }.freeIndirectBlocksRequiredBy startBid
      pure (.error e, s)
    | .ok _ => pure (.ok (stop - start), s.recordRange startBid start stop)

def tryExpandBlocks (start stop : Nat) : Res (Outcome InodeImpl Nat) := do
  let path ← BidPath.ofBid start
  let maxCnt := min (stop - start) path.cntToNextIndirect
  if path.indirectCnt = 0 then s.expandInBlock start maxCnt else s.expandWithIndirect start maxCnt path.indirectCnt

/-! ### Reading device ranges -/

/-- The block of pointers that holds the pointers from `start` on, `none` for those of the inode. -/
def indirectBlockAt (start : Nat) : Res (Option (Nat → Nat)) := do
  let path ← BidPath.ofBid start
  match path with
  | .direct _ => pure none
  | .indirect _ => pure (some (s.indirectBlocks.find (s.blockPtrs INDIRECT)))
  | .dbIndirect lvl1 _ =>
    let lvl1IndirectBid := s.indirectBlocks.find (s.blockPtrs DB_INDIRECT) lvl1
    pure (some (s.indirectBlocks.find lvl1IndirectBid))
  | .tbIndirect lvl1 lvl2 _ =>
    let lvl1IndirectBid := s.indirectBlocks.find (s.blockPtrs TB_INDIRECT) lvl1
    let lvl2IndirectBid := s.indirectBlocks.find lvl1IndirectBid lvl2
    pure (some (s.indirectBlocks.find lvl2IndirectBid))

structure DeviceRangeReader where
  start : Nat
  stop : Nat
  indirectBlock : Option (Nat → Nat)

def newReader (start stop : Nat) : Res DeviceRangeReader := do
  require (start < stop) "assertion failed: !range.is_empty()"
  let indirectBlock ← s.indirectBlockAt start
  pure { start, stop, indirectBlock }

/-- How many of the next slots go on with the range that ends at `bid`. -/
def runLength (bids : Nat → Nat) : Nat → Nat → Nat → Nat
  | 0, _, _ => 0
  | n + 1, idx, bid => if bids idx = bid then runLength bids n (idx + 1) (bid + 1) + 1 else 0

/-- `read` of `DeviceRangeReader`. -/
def readRange (r : DeviceRangeReader) : Res ((Nat × Nat) × DeviceRangeReader) := do
  let path ← BidPath.ofBid r.start
  let maxCnt := min (r.stop - r.start) path.cntToNextIndirect
  let bids := r.indirectBlock.getD s.blockPtrs
  let first := bids path.lastLvlIdx
  let len := runLength bids (maxCnt - 1) (path.lastLvlIdx + 1) (first + 1) + 1
  if len = maxCnt then do
    let indirectBlock ← s.indirectBlockAt (r.start + len)
    pure ((first, first + len), { r with start := r.start + len, indirectBlock })
  else pure ((first, first + len), { r with start := r.start + len })

/-! ### Shrinking -/

/-- Frees the device ranges that a reader returns. -/
def freeRanges : Nat → InodeImpl → DeviceRangeReader → Res InodeImpl
  | 0, s, _ => .ok s
  | fuel + 1, s, r =>
    if r.stop ≤ r.start then .ok s
    else do
      let ((start, stop), r) ← s.readRange r
      let fs ← s.fs.freeBlocksUnwrap start stop
      freeRanges fuel { s with fs } r

def tryShrinkBlocks (start stop : Nat) : Res (Nat × InodeImpl) := do
  let path ← BidPath.ofBid (stop - 1)
  let maxCnt := min (stop - start) (path.lastLvlIdx + 1)
  let reader ← s.newReader (stop - maxCnt) stop
  let s ← freeRanges maxCnt s reader
  let s ← s.freeIndirectBlocksRequiredBy (stop - maxCnt)
  pure (maxCnt, s)

/-- The loop of `shrink_blocks`. -/
def shrinkLoop : Nat → InodeImpl → Nat → Nat → Res InodeImpl
  | 0, s, _, _ => .ok s
  | fuel + 1, s, start, stop =>
    if stop ≤ start then .ok s
    else do
      let (freeCnt, s) ← s.tryShrinkBlocks start stop
      shrinkLoop fuel s start (stop - freeCnt)

/-- The device block of the last block before `start`. -/
def deviceBidBefore (start : Nat) : Res (Option Nat) :=
  if start = 0 then .ok none
  else do
    let reader ← s.newReader (start - 1) start
    let (range, _) ← s.readRange reader
    pure (some range.1)

def shrinkBlocks (start stop : Nat) : Res InodeImpl := do
  let s ← shrinkLoop (stop - start) s start stop
  let lastAllocDeviceBid ← s.deviceBidBefore start
  pure { s with blocksCount := start, lastAllocDeviceBid }

/-! ### Resizing -/

/-- The loop of `expand_blocks`. -/
def expandLoop (first stop : Nat) : Nat → InodeImpl → Nat → Res (Outcome InodeImpl Unit)
  | 0, s, _ => .ok (.ok (), s)
  | fuel + 1, s, start =>
    if stop ≤ start then .ok (.ok (), s)
    else do
      let (result, s) ← s.tryExpandBlocks start stop
      match result with
      | .error _ => do
        let s ← s.shrinkBlocks first start
        pure (.error ⟨.enospc, some "can not allocate blocks"⟩, s)
      | .ok expandCnt => expandLoop first stop fuel s (start + expandCnt)

def expandBlocks (start stop : Nat) : Res (Outcome InodeImpl Unit) :=
  expandLoop start stop (stop - start) s start

variable (newSize : Nat)

def updateSize : Res InodeImpl := do
  let s := { s with size := newSize }
  let _ ← s.descBlocksCount
  pure s

def expand : Res (Outcome InodeImpl Unit) := do
  let oldBlocks ← s.descBlocksCount
  let newBlocks := sizeToBlocks newSize
  if newBlocks ≤ oldBlocks then do
    let s ← s.updateSize newSize
    pure (.ok (), s)
  else if s.fs.freeBlocksCount < newBlocks - oldBlocks then
    pure (.error ⟨.enospc, some "not enough free blocks"⟩, s)
  else do
    let (result, s) ← s.expandBlocks oldBlocks newBlocks
    match result with
    | .error e => pure (.error e, s)
    | .ok _ => do
      let s ← s.updateSize newSize
      pure (.ok (), s)

def shrink : Res InodeImpl := do
  let oldBlocks ← s.descBlocksCount
  let newBlocks := sizeToBlocks newSize
  if newBlocks < oldBlocks then do
    let s ← s.shrinkBlocks newBlocks oldBlocks
    s.updateSize newSize
  else s.updateSize newSize

def resize : Res (Outcome InodeImpl Unit) :=
  if s.size < newSize then s.expand newSize
  else do
    let s ← s.shrink newSize
    pure (.ok (), s)

end InodeImpl

end OmegaOsx.Ext2
