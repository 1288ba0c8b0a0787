import OmegaOsx.Ext2.BlockMapping

/-!
# Deleting an inode

`sync_metadata` of `ext2/inode.rs`, which releases an inode without links: it is resized to nothing, its number is
freed once, and its attribute block is meant to be freed with it. But `Xattr::free` frees the empty range
`bid..bid`, so that the block of an inode with extended attributes stays in use for ever. Everything else is
released: `sync_frees_all_iff`.
-/

set_option linter.dupNamespace false

namespace OmegaOsx.Ext2

open BidPath Function InodeImpl Ext2 IdAlloc
open MlsDisk (ok_bind bind_ok exists_ok_of_map update_same)

/-- The parts of `Inode` that its release works on. -/
structure Inode where
  impl : InodeImpl
  /-- The blocks of the device, as the attributes see them. -/
  blocks : Nat → Nat → UInt8
  ino : Nat
  isDir : Bool
  hardLinks : Nat
  /-- The flag of the descriptor. -/
  dirty : Bool
  isFreed : Bool
  xattr : Option Xattr

namespace Inode

variable (s : Inode)

/-- The attributes are freed with the inode, if there are any. -/
def freeXattr : Res (Outcome Inode Unit) :=
  match s.xattr with
  | none => .ok (.ok (), s)
  | some xattr => do
    let (result, dev, xattr) ← Xattr.free ⟨s.impl.fs, s.blocks⟩ xattr
    pure (result, { s with impl := { s.impl with fs := dev.fs }, blocks := dev.blocks, xattr := some xattr })

/-- The part of `sync_metadata` behind the check of `is_freed`. -/
def freeOnce : Res (Outcome Inode Unit) :=
  if s.isFreed then .ok (.ok (), s)
  else do
    let (result, fs) ← s.impl.fs.freeInode s.ino s.isDir
    match result with
    | .error errno => pure (.error ⟨errno, none⟩, { s with impl := { s.impl with fs } })
    | .ok _ => do
      let (result, s) ← { s with impl := { s.impl with fs } }.freeXattr
      match result with
      | .error e => pure (.error e, s)
      | .ok _ => pure (.ok (), { s with isFreed := true })

/-- What `sync_metadata` does with an inode that has no links. -/
def release : Res (Outcome Inode Unit) :=
  if s.hardLinks ≠ 0 then .ok (.ok (), s)
  else do
    let (result, impl) ← s.impl.resize 0
    match result with
    | .error e => pure (.error e, { s with impl })
    | .ok _ => freeOnce { s with impl }

def syncMetadata : Res (Outcome Inode Unit) :=
  if !s.dirty then .ok (.ok (), s)
  else do
    let (result, s) ← s.release
    match result with
    | .error e => pure (.error e, s)
    | .ok _ =>
      let impl := { s.impl with indirectBlocks := s.impl.indirectBlocks.evictAll }
      pure (.ok (), { s with impl, dirty := false })

/-- `resize`, which writes the descriptor. -/
def resize (s : Inode) (newSize : Nat) : Res (Outcome Inode Unit) := do
  let (result, impl) ← s.impl.resize newSize
  pure (result, { s with impl, dirty := true })

def incHardLinks : Inode := { s with hardLinks := s.hardLinks + 1, dirty := true }

def decHardLinks : Res Inode := do
  require (0 < s.hardLinks) "assertion failed: self.hard_links() > 0"
  pure { s with hardLinks := s.hardLinks - 1, dirty := true }

/-- Any other change of the descriptor. -/
def touch : Inode := { s with dirty := true }

end Inode

/-! ### Freeing the number -/

theorem IdAlloc.freeOne_bits {a a' : IdAlloc} {id : Nat} (freed : a.freeOne id = .ok a') : a'.bits id = false := by
  unfold freeOne freeConsecutive at freed
  rw [if_neg (by omega)] at freed
  split at freed
  · cases freed
  split at freed
  · cases freed
    exact BitRange.setRange_of_mem ⟨le_rfl, Nat.lt_succ_self _⟩
  · cases freed

namespace Ext2

/-- Whether an inode number is in use. -/
def inodeUsed (fs : Ext2) (ino : Nat) : Bool :=
  (fs.blockGroups ((ino - 1) / fs.inodesPerGroup)).inodeBitmap.bits ((ino - 1) % fs.inodesPerGroup)

/-- The states agree on the blocks. -/
structure SameBlocks (fs fs' : Ext2) : Prop where
  wf : fs.WF → fs'.WF
  hasBlock : ∀ bid, fs'.HasBlock bid ↔ fs.HasBlock bid
  used : fs'.used = fs.used

variable {fs fs' : Ext2} {ino : Nat} {isDir : Bool}

theorem SameBlocks.of_bitmaps (bitmaps : ∀ i, (fs'.blockGroups i).blockBitmap = (fs.blockGroups i).blockBitmap)
    (counts : ∀ i, (fs'.blockGroups i).freeBlocksCount = (fs.blockGroups i).freeBlocksCount)
    (blocksPerGroup : fs'.blocksPerGroup = fs.blocksPerGroup) (numGroups : fs'.numGroups = fs.numGroups)
    (free : fs'.freeBlocksCount = fs.freeBlocksCount) : SameBlocks fs fs' := by
  refine ⟨fun wf => ⟨⟨blocksPerGroup ▸ wf.pos, fun i lt => ?_, fun i lt => ?_, fun i lt => ?_, ?_⟩,
    ?_⟩, fun bid => ?_,
    funext fun bid => ?_⟩
  · obtain ⟨bitmap, count, small, beyond⟩ := wf.group i (numGroups ▸ lt)
    exact ⟨bitmaps i ▸ bitmap, by rw [counts, bitmaps, count], bitmaps i ▸ small, bitmaps i ▸ beyond⟩
  · rw [bitmaps, blocksPerGroup]
    exact wf.le i (numGroups ▸ lt)
  · rw [bitmaps, blocksPerGroup]
    exact wf.full i (numGroups ▸ lt)
  · simp only [bitmaps, numGroups]
    exact wf.total
  · rw [free, wf.count]
    unfold freeInGroups
    simp only [bitmaps, numGroups]
  · unfold HasBlock
    rw [bitmaps, blocksPerGroup, numGroups]
  · unfold Ext2.used
    rw [bitmaps, blocksPerGroup]

theorem SameBlocks.refl (fs : Ext2) : SameBlocks fs fs := ⟨id, fun _ => Iff.rfl, rfl⟩

/-- A number that is freed was in use, and only it changes. -/
theorem freeInode_inv (freed : fs.freeInode ino isDir = .ok (.ok (), fs')) :
    fs.inodeUsed ino = true ∧ fs'.inodeUsed ino = false ∧ fs'.freeInodesCount = fs.freeInodesCount + 1 ∧
      SameBlocks fs fs' := by
  unfold freeInode at freed
  dsimp only at freed
  split at freed
  · cases freed
  obtain ⟨_, -, freed⟩ := bind_ok.mp freed
  obtain ⟨_, -, freed⟩ := bind_ok.mp freed
  obtain ⟨g, group, freed⟩ := bind_ok.mp freed
  cases freed
  obtain ⟨_, allocated, group⟩ := bind_ok.mp group
  obtain ⟨bitmap, cleared, group⟩ := bind_ok.mp group
  obtain ⟨_, -, group⟩ := bind_ok.mp group
  obtain ⟨_, -, group⟩ := bind_ok.mp group
  cases group
  refine ⟨require_ok.mp allocated, ?_, rfl, .of_bitmaps (update_same fs.blockGroups (·.blockBitmap) (by rfl))
    (update_same fs.blockGroups (·.freeBlocksCount) (by rfl)) rfl rfl rfl⟩
  have bit : bitmap.bits ((ino - 1) % fs.inodesPerGroup) = false := freeOne_bits cleared
  change (update fs.blockGroups _ _ ((ino - 1) / fs.inodesPerGroup)).inodeBitmap.bits
    ((ino - 1) % fs.inodesPerGroup) = false
  rw [update_self]
  exact bit

end Ext2

variable {result : Except Error Unit}

namespace InodeImpl

variable {s s' : InodeImpl} {path : BidPath}

/-! ### A file of the largest size -/

theorem ofBid_maxBlocks : ∃ fault, ofBid maxBlocks = .error fault := ⟨_, rfl⟩

theorem indirectBlockAt_maxBlocks (s : InodeImpl) : ∃ fault, s.indirectBlockAt maxBlocks = .error fault := by
  obtain ⟨fault, eq⟩ := ofBid_maxBlocks
  exact ⟨fault, by rw [indirectBlockAt, eq]; rfl⟩

/-- The reader panics when it has read the last block. -/
theorem freeRanges_maxBlocks {fuel : Nat} {block : Option (Nat → Nat)} (valid : path.Valid)
    (inside : maxBlocks - path.bid ≤ path.cntToNextIndirect) (enough : maxBlocks - path.bid ≤ fuel) :
    freeRanges fuel s ⟨path.bid, maxBlocks, block⟩ ≠ .ok s' := by
  have lt := valid.bid_lt
  induction fuel generalizing s path with
  | zero => omega
  | succ fuel ih =>
    intro freed
    rw [freeRanges, if_neg (not_le.mpr lt)] at freed
    obtain ⟨⟨⟨start, stop⟩, r⟩, read, freed⟩ := bind_ok.mp freed
    unfold readRange at read
    rw [ofBid_of_valid valid, ok_bind] at read
    dsimp only at read
    rw [min_eq_left inside] at read
    have le := runLength_le (block.getD s.blockPtrs) (maxBlocks - path.bid - 1) (path.lastLvlIdx + 1)
      (block.getD s.blockPtrs path.lastLvlIdx + 1)
    generalize runLength (block.getD s.blockPtrs) (maxBlocks - path.bid - 1) (path.lastLvlIdx + 1)
      (block.getD s.blockPtrs path.lastLvlIdx + 1) = len at le read
    split at read
    · next whole =>
      obtain ⟨fault, panics⟩ := s.indirectBlockAt_maxBlocks
      rw [show path.bid + (len + 1) = maxBlocks by omega] at read
      cases read
    · next part =>
      cases read
      obtain ⟨fs, -, freed⟩ := bind_ok.mp freed
      have valid' : (path.skip (len + 1)).Valid := valid.skip (by omega)
      rw [← bid_skip] at freed
      refine ih valid' ?_ ?_ valid'.bid_lt freed
      · rw [cntToNextIndirect_skip, bid_skip]
        omega
      · rw [bid_skip]
        omega

theorem tryShrinkBlocks_maxBlocks {k : Nat} : s.tryShrinkBlocks 0 maxBlocks ≠ .ok (k, s') := by
  intro shrunk
  obtain ⟨last, valid, eq⟩ := exists_path (b := maxBlocks - 1) (by decide)
  have small : last.lastLvlIdx < maxBlocks := by
    have := valid.bid_lt
    cases last <;> simp only [BidPath.bid, lastLvlIdx] at * <;> omega
  obtain ⟨path, valid', skip⟩ := valid.exists_back last.lastLvlIdx le_rfl
  have first : path.bid + last.lastLvlIdx = maxBlocks - 1 := by rw [← bid_skip, skip, eq]
  have cnt := valid.cntToNextIndirect_pos
  rw [← skip, cntToNextIndirect_skip] at cnt
  unfold tryShrinkBlocks at shrunk
  rw [← eq, ofBid_of_valid valid, ok_bind] at shrunk
  dsimp only at shrunk
  rw [min_eq_right (by omega), show maxBlocks - (last.lastLvlIdx + 1) = path.bid by omega] at shrunk
  obtain ⟨block, reader, -⟩ := s.newReader_ok valid' valid'.bid_lt
  rw [reader, ok_bind] at shrunk
  obtain ⟨s1, freed, -⟩ := bind_ok.mp shrunk
  exact freeRanges_maxBlocks valid' (by omega) (by omega) freed

variable {others : Nat → Bool}

theorem Sound.sameBlocks {fs : Ext2} (h : Sound s others) (same : Ext2.SameBlocks s.fs fs) :
    Sound { s with fs } others := by
  obtain ⟨⟨tree, wf, reserved, there, apart, inUse⟩, bound, count⟩ := h
  refine ⟨⟨tree, same.wf wf, reserved, fun p mem => (same.hasBlock _).mpr (there p mem), apart,
    fun bid => ?_⟩, bound, count⟩
  rw [same.used]
  exact inUse bid

/-- Writing back the indirect blocks changes nothing that can be read. -/
theorem Sound.evictAll (h : Sound s others) : Sound { s with indirectBlocks := s.indirectBlocks.evictAll } others := by
  obtain ⟨⟨tree, wf, reserved, there, apart, inUse⟩, bound, count⟩ := h
  exact ⟨⟨tree, wf, reserved, there, apart, inUse⟩, bound, count⟩

theorem resize_zero_maxBlocks (large : s.blocks = maxBlocks) : s.resize 0 ≠ .ok (result, s') := by
  intro resized
  unfold resize at resized
  obtain ⟨s1, shrunk, -⟩ := bind_ok.mp resized
  obtain ⟨old, count, shrunk⟩ := bind_ok.mp shrunk
  obtain ⟨_, -, count⟩ := bind_ok.mp count
  cases count
  rw [show sizeToBlocks s.size = maxBlocks from large] at shrunk
  obtain ⟨s2, shrunk, -⟩ := bind_ok.mp shrunk
  obtain ⟨s3, shrunk, -⟩ := bind_ok.mp shrunk
  obtain ⟨⟨k, s4⟩, shrunk, -⟩ := bind_ok.mp shrunk
  exact tryShrinkBlocks_maxBlocks shrunk

end InodeImpl

theorem InodeImpl.resize_zero_result {s s' : InodeImpl} (eq : s.resize 0 = .ok (result, s')) : result = .ok () := by
  unfold resize at eq
  obtain ⟨_, -, eq⟩ := bind_ok.mp eq
  cases eq
  rfl

namespace Inode

variable {s s' : Inode} {others others' : Nat → Bool} {attr : Nat}

/-- The blocks of others, and the attribute block. -/
def withAttr (others : Nat → Bool) (attr bid : Nat) : Bool := others bid || bid == attr

/-- The block of the attributes, zero if there is none. -/
def attrBid (s : Inode) : Nat := s.xattr.elim 0 (·.bid)

/-- What an inode has: the blocks of its tree, and the attribute block if it is not zero. A clean descriptor without
links is one that has been released. -/
structure Owns (attr : Nat) (s : Inode) (others : Nat → Bool) : Prop where
  attrBid : s.isFreed = false → s.attrBid = attr
  sound : s.impl.Sound (withAttr others attr)
  reserved : others 0 = true
  mine : attr ≠ 0 → others attr = false
  clean : s.dirty = false → s.hardLinks = 0 → s.isFreed = true ∧ s.impl.blocks = 0

/-- The states agree on the inode numbers. -/
structure SameInodes (fs fs' : Ext2) : Prop where
  used : ∀ ino, fs'.inodeUsed ino = fs.inodeUsed ino
  count : fs'.freeInodesCount = fs.freeInodesCount

variable {fs fs' : Ext2}

theorem SameInodes.of_alike (alike : Ext2.Alike fs fs') : SameInodes fs fs' :=
  ⟨fun ino => by rw [inodeUsed, inodeUsed, alike.inodesPerGroup, alike.inodeBitmap], alike.freeInodesCount⟩

/-- The attribute block is not freed. -/
theorem freeXattr_inv (freed : s.freeXattr = .ok (result, s')) :
    result = .ok () ∧ s'.impl = s.impl ∧ s'.isFreed = s.isFreed ∧ s'.hardLinks = s.hardLinks ∧
    s'.dirty = s.dirty := by
  unfold freeXattr at freed
  split at freed
  · cases freed
    exact ⟨rfl, rfl, rfl, rfl, rfl⟩
  · next xattr _ =>
    obtain ⟨⟨result', dev, xattr'⟩, freed', eq⟩ := bind_ok.mp freed
    cases eq
    unfold Xattr.free at freed'
    split at freed'
    · cases freed'
      exact ⟨rfl, rfl, rfl, rfl, rfl⟩
    have empty : (freeBlocks s.impl.fs xattr.bid xattr.bid) = .ok (.ok (), s.impl.fs) := by
      rw [freeBlocks, Nat.sub_self, freeLoop]
    rw [empty] at freed'
    cases freed'
    exact ⟨rfl, rfl, rfl, rfl, rfl⟩

/-- What becomes of the number of an inode that is released. -/
structure NumberFreed (s : Inode) (fs : Ext2) : Prop where
  first : s.isFreed = false →
    s.impl.fs.inodeUsed s.ino = true ∧ fs.inodeUsed s.ino = false ∧
    fs.freeInodesCount = s.impl.fs.freeInodesCount + 1
  again : s.isFreed = true → SameInodes s.impl.fs fs

/-- Nothing but the inode numbers, the attributes and the flag changes. -/
structure FreedOnce (s : Inode) (result : Except Error Unit) (s' : Inode) : Prop where
  impl : s'.impl = { s.impl with fs := s'.impl.fs }
  blocks : Ext2.SameBlocks s.impl.fs s'.impl.fs
  links : s'.hardLinks = s.hardLinks
  dirty : s'.dirty = s.dirty
  attrs : s'.isFreed = false → s.isFreed = false ∧ s'.xattr = s.xattr
  freed : result = .ok () → s'.isFreed = true ∧ NumberFreed s s'.impl.fs

theorem freeInode_error {ino : Nat} {isDir : Bool} {errno : Errno}
    (failed : fs.freeInode ino isDir = .ok (.error errno, fs')) : fs' = fs := by
  unfold freeInode at failed
  dsimp only at failed
  split at failed
  · cases failed
    rfl
  obtain ⟨_, -, failed⟩ := bind_ok.mp failed
  obtain ⟨_, -, failed⟩ := bind_ok.mp failed
  obtain ⟨_, -, failed⟩ := bind_ok.mp failed
  cases failed

theorem freeOnce_inv (eq : s.freeOnce = .ok (result, s')) : FreedOnce s result s' := by
  unfold freeOnce at eq
  split at eq
  · next already =>
    cases eq
    exact ⟨rfl, .refl _, rfl, rfl, fun new => ⟨new, rfl⟩,
      fun _ => ⟨already, fun new => absurd (already.symm.trans new) (by decide),
      fun _ => ⟨fun _ => rfl, rfl⟩⟩⟩
  · next new =>
    obtain ⟨⟨numberResult, fs⟩, number, eq⟩ := bind_ok.mp eq
    cases numberResult with
    | error errno =>
      obtain rfl := freeInode_error number
      cases eq
      exact ⟨rfl, .refl _, rfl, rfl, fun new => ⟨new, rfl⟩, fun ok => by cases ok⟩
    | ok =>
      obtain ⟨⟨attrResult, s1⟩, attrs, eq⟩ := bind_ok.mp eq
      obtain ⟨rfl, impl, -, links, dirty⟩ := freeXattr_inv attrs
      cases eq
      obtain ⟨used, free, count, same⟩ := freeInode_inv number
      refine ⟨?_, ?_, links, dirty, (fun new => by cases new),
        fun _ => ⟨rfl, fun _ => ?_, fun already => absurd already new⟩⟩
      · rw [impl]
      · rw [impl]
        exact same
      · rw [impl]
        exact ⟨used, free, count⟩

/-- An inode without links has no blocks after `sync_metadata`, whatever it had before. -/
theorem release_inv (owns : Owns attr s others) (eq : s.release = .ok (result, s')) :
    s'.impl.Sound (withAttr others attr) ∧ (s'.isFreed = false → s'.attrBid = attr) ∧
    s'.hardLinks = s.hardLinks ∧
      s'.dirty = s.dirty ∧
      (s.hardLinks = 0 → s'.impl.blocks = 0 ∧
      (result = .ok () → s'.isFreed = true ∧ NumberFreed s s'.impl.fs)) := by
  unfold release at eq
  split at eq
  · next linked =>
    cases eq
    exact ⟨owns.sound, owns.attrBid, rfl, rfl, fun none => absurd none linked⟩
  · next none =>
    obtain ⟨⟨resizeResult, impl⟩, resize, eq⟩ := bind_ok.mp eq
    have small : s.impl.blocks < maxBlocks := by
      refine lt_of_le_of_ne owns.sound.blocks_le fun large => ?_
      exact resize_zero_maxBlocks large resize
    have fits : s.impl.Fits 0 :=
      ⟨by decide, fun _ => small, fun grows => absurd grows (Nat.not_lt_zero _),
        fun _ _ _ _ below => absurd below (Nat.not_lt_zero _)⟩
    obtain ⟨result', impl', resize', resized⟩ := resize_ok owns.sound fits
    cases resize'.symm.trans resize
    obtain rfl := resize_zero_result resize
    have freed := freeOnce_inv eq
    have size : impl.size = 0 := resized.size
    have empty : impl.blocks = 0 := (congrArg sizeToBlocks size).trans (by decide)
    have sound := resized.sound.sameBlocks freed.blocks
    rw [← freed.impl] at sound
    refine ⟨sound, fun new => ?_, freed.links, freed.dirty, fun _ => ⟨?_, fun ok => ?_⟩⟩
    · obtain ⟨new, same⟩ := freed.attrs new
      rw [← owns.attrBid new, Inode.attrBid, same]
      rfl
    · rw [freed.impl]
      exact empty
    · obtain ⟨isFreed, first, again⟩ := freed.freed ok
      have same := SameInodes.of_alike resized.alike
      refine ⟨isFreed, fun new => ?_, fun already => ?_⟩
      · obtain ⟨used, free, count⟩ := first new
        exact ⟨(same.used s.ino).symm.trans used, free, count.trans (congrArg (· + 1) same.count)⟩
      · have rest := again already
        exact ⟨fun ino => (rest.used ino).trans (same.used ino), rest.count.trans same.count⟩

/-- `sync_metadata` keeps what the inode has; without links it has no blocks and no number afterwards. -/
theorem syncMetadata_inv (owns : Owns attr s others) (eq : s.syncMetadata = .ok (result, s')) : Owns attr s' others ∧
      (s.hardLinks = 0 → result = .ok () → s'.impl.blocks = 0 ∧ s'.isFreed = true ∧
      NumberFreed s s'.impl.fs) := by
  unfold syncMetadata at eq
  split at eq
  · next clean =>
    cases eq
    have clean : s.dirty = false := by simpa using clean
    refine ⟨owns, fun links _ => ?_⟩
    obtain ⟨freed, empty⟩ := owns.clean clean links
    exact ⟨empty, freed, fun new => absurd (freed.symm.trans new) (by decide), fun _ => ⟨fun _ => rfl, rfl⟩⟩
  · next changed =>
    have changed : s.dirty = true := by simpa using changed
    obtain ⟨⟨result', s1⟩, release, eq⟩ := bind_ok.mp eq
    obtain ⟨sound, attrs, links, dirty, released⟩ := release_inv owns release
    cases result' with
    | error e =>
      cases eq
      refine ⟨⟨attrs, sound, owns.reserved, owns.mine, fun clean => ?_⟩, fun _ ok => by cases ok⟩
      exact absurd (clean.symm.trans (dirty.trans changed)) (by decide)
    | ok =>
      cases eq
      refine ⟨⟨attrs, sound.evictAll, owns.reserved, owns.mine, fun _ none => ?_⟩, fun none _ => ?_⟩
      · obtain ⟨empty, freed⟩ := released (links.symm.trans none)
        exact ⟨(freed rfl).1, empty⟩
      · obtain ⟨empty, freed⟩ := released none
        exact ⟨empty, freed rfl⟩

/-! ### Runs -/

inductive Op
  | resize (newSize : Nat)
  | link
  | unlink
  | touch
  | sync
  /-- Others allocate, free and write blocks. -/
  | elsewhere

/-- Steps of an inode whose calls of `resize` fit. -/
inductive Step (attr : Nat) : Inode × (Nat → Bool) → Op → Inode × (Nat → Bool) → Prop
  | resize {s s' : Inode} {others : Nat → Bool} {newSize : Nat} {result : Except Error Unit}
    (fits : s.impl.Fits newSize)
      (eq : s.resize newSize = .ok (result, s')) : Step attr (s, others) (.resize newSize) (s', others)
  | link (s : Inode) (others : Nat → Bool) : Step attr (s, others) .link (s.incHardLinks, others)
  | unlink {s s' : Inode} {others : Nat → Bool} (eq : s.decHardLinks = .ok s') :
    Step attr (s, others) .unlink (s', others)
  | touch (s : Inode) (others : Nat → Bool) : Step attr (s, others) .touch (s.touch, others)
  | sync {s s' : Inode} {others : Nat → Bool} {result : Except Error Unit} (eq : s.syncMetadata = .ok (result, s')) :
      Step attr (s, others) .sync (s', others)
  | elsewhere {s : Inode} {others others' : Nat → Bool} {fs : Ext2} {indirectBlocks : IndirectBlockCache}
      (h : InodeImpl.Elsewhere s.impl (withAttr others attr) fs indirectBlocks (withAttr others' attr))
      (reserved : others' 0 = true) (mine : attr ≠ 0 → others' attr = false) :
      Step attr (s, others) .elsewhere ({ s with impl := { s.impl with fs, indirectBlocks } }, others')

theorem Step.owns {a b : Inode × (Nat → Bool)} {op : Op} (owns : Owns attr a.1 a.2) (step : Step attr a op b) :
    Owns attr b.1 b.2 := by
  cases step with
  | resize fits eq =>
    obtain ⟨result', impl, eq', resized⟩ := resize_ok owns.sound fits
    unfold Inode.resize at eq
    rw [eq'] at eq
    cases eq
    exact ⟨owns.attrBid, resized.sound, owns.reserved, owns.mine, fun clean => by cases clean⟩
  | link s others => exact ⟨owns.attrBid, owns.sound, owns.reserved, owns.mine, fun clean => by cases clean⟩
  | unlink eq =>
    obtain ⟨_, -, eq⟩ := bind_ok.mp eq
    cases eq
    exact ⟨owns.attrBid, owns.sound, owns.reserved, owns.mine, fun clean => by cases clean⟩
  | touch s others => exact ⟨owns.attrBid, owns.sound, owns.reserved, owns.mine, fun clean => by cases clean⟩
  | sync eq => exact (syncMetadata_inv owns eq).1
  | elsewhere h reserved mine => exact ⟨owns.attrBid, h.sound owns.sound, reserved, mine, owns.clean⟩

/-- Every block of the inode is free. -/
def AllFree (s : Inode) (others : Nat → Bool) : Prop := ∀ bid, s.impl.fs.used bid = true ↔ others bid = true

/-- When an inode has no links and `sync_metadata` has succeeded, its number has been freed once, and all its blocks are
free if and only if it has no attribute block. -/
theorem sync_frees_all_iff {s0 : Inode} {others0 : Nat → Bool} {ops : List Op} (init : Owns attr s0 others0)
    (run : Labelled.Run (Step attr) (s0, others0) ops (s, others)) (links : s.hardLinks = 0)
    (sync : s.syncMetadata = .ok (.ok (), s')) :
    (AllFree s' others ↔ attr = 0) ∧ s'.isFreed = true ∧ NumberFreed s s'.impl.fs := by
  have keep : ∀ a op b, Owns attr a.1 a.2 → Step attr a op b → Owns attr b.1 b.2 :=
    fun _ _ _ owns step => step.owns owns
  have owns : Owns attr s others := run.invariant keep init
  obtain ⟨owns', released⟩ := syncMetadata_inv owns sync
  obtain ⟨empty, freed, number⟩ := released links rfl
  refine ⟨?_, freed, number⟩
  have inUse : ∀ bid, s'.impl.fs.used bid = true ↔ others bid = true ∨ bid = attr := by
    intro bid
    rw [owns'.sound.mapped.inUse, empty]
    constructor
    · rintro (other | ⟨p, mem, -⟩)
      · simpa [withAttr] using other
      · exact absurd mem.2 (Nat.not_lt_zero _)
    · intro other
      exact .inl (by simpa [withAttr] using other)
  constructor
  · intro all
    refine Classical.not_not.mp fun some => ?_
    have used := (all attr).mp ((inUse attr).mpr (.inr rfl))
    exact absurd (used.symm.trans (owns'.mine some)) (by decide)
  · rintro rfl bid
    rw [inUse]
    exact ⟨fun other => other.elim id fun zero => zero ▸ owns'.reserved, .inl⟩

/-- An empty file with one link, and with the given block of attributes. -/
def emptyFile (attr : Nat) : Inode where
  impl := smallInode
  blocks _ _ := 0
  ino := 1
  isDir := false
  hardLinks := 1
  dirty := false
  isFreed := false
  xattr := some (Xattr.new attr)

/-- The file after its link is gone. -/
def unlinkedFile (attr : Nat) : Inode := { emptyFile attr with hardLinks := 0, dirty := true }

/-- The blocks in use but for the one of the attributes. -/
def rest (attr bid : Nat) : Bool := oneGroup.used bid && (bid == 0 || bid != attr)

theorem emptyFile_owns {attr : Nat} (used : oneGroup.used attr = true) : Owns attr (emptyFile attr) (rest attr) := by
  have same : withAttr (rest attr) attr = oneGroup.used := by
    funext bid
    by_cases eq : bid = attr
    · subst eq
      simp [withAttr, used]
    · have ne : (bid != attr) = true := bne_iff_ne.mpr eq
      have other : (bid == attr) = false := beq_false_of_ne eq
      simp [withAttr, rest, ne, other]
  have reserved : oneGroup.used 0 = true := by decide
  refine ⟨fun _ => rfl, ?_, by simp [rest, reserved], fun ne => by simp [rest, ne], fun _ links => by cases links⟩
  rw [same]
  exact new_sound oneGroup_wf (by decide) 0 _

/-- A file of fourteen blocks, with an indirect block and without attributes, is released as a whole. -/
theorem sync_frees_all_iff_fourteenBlocks : Owns 0 (emptyFile 0) (rest 0) ∧
    ∃ s s', Labelled.Run (Step 0) (emptyFile 0, rest 0) [.resize 57344, .unlink] (s, rest 0) ∧
      s.impl.fs.freeBlocksCount = 3 ∧ s.syncMetadata = .ok (.ok (), s') ∧ AllFree s' (rest 0) ∧
      s'.impl.fs.freeBlocksCount = 18 ∧ NumberFreed s s'.impl.fs := by
  have owns : Owns 0 (emptyFile 0) (rest 0) := emptyFile_owns (by decide)
  obtain ⟨⟨r, s, ⟨_, s'⟩⟩, h, seen⟩ := exists_ok_of_map
    (x := do
      let r ← (emptyFile 0).resize 57344
      let s ← r.2.decHardLinks
      pure (r, s, ← s.syncMetadata))
    (f := fun x => (x.2.1.hardLinks, x.2.1.impl.fs.freeBlocksCount, x.2.2.1, x.2.2.2.impl.fs.freeBlocksCount))
    (b := (0, 3, .ok (), 18)) (by decide +kernel)
  obtain ⟨_, grow, h⟩ := bind_ok.mp h
  obtain ⟨_, unlink, h⟩ := bind_ok.mp h
  obtain ⟨_, sync, h⟩ := bind_ok.mp h
  cases h
  simp only [Prod.mk.injEq] at seen
  obtain ⟨links, used, rfl, free⟩ := seen
  have run : Labelled.Run (Step 0) (emptyFile 0, rest 0) [.resize 57344, .unlink] (s, rest 0) :=
    .cons (.resize (fits_of_few rfl (by decide) (by decide)) grow) (.single (.unlink unlink))
  obtain ⟨all, -, number⟩ := sync_frees_all_iff owns run links sync
  exact ⟨owns, s, s', run, used, sync, all.mpr rfl, free, number⟩

/-- The block of the attributes of a deleted file stays in use. -/
theorem attribute_block_leaks : Owns 19 (emptyFile 19) (rest 19) ∧
    ∃ s', (unlinkedFile 19).syncMetadata = .ok (.ok (), s') ∧ s'.impl.fs.used 19 = true ∧ rest 19 19 = false ∧
      ¬ AllFree s' (rest 19) := by
  have ok : (unlinkedFile 19).syncMetadata.toOption.map (fun a => (a.1, a.2.impl.fs.used 19)) = some
    (.ok (), true) := by
    decide +kernel
  obtain ⟨⟨_, s'⟩, sync, seen⟩ := exists_ok_of_map ok
  obtain ⟨rfl, used⟩ := Prod.mk.inj seen
  refine ⟨emptyFile_owns (by decide), s', sync, used, by decide, fun all => ?_⟩
  exact absurd ((all 19).mp used) (by decide)

end Inode

end OmegaOsx.Ext2
