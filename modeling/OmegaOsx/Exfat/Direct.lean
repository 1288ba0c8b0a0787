import OmegaOsx.Exfat.WriteAt

/-!
# Direct and cached access

A cached page goes to the sector that `get_sector_id` computes; a direct access takes its blocks from
its own walk along the chain. The walk leaves out that clusters are counted from two and where the heap
starts, goes to the next cluster once for each block, and walks on after the last block. A direct write
drops the pages of the page cache manager, but those committed to the `Vmo` stay.

Requests are whole blocks. There are no I/O failures, user memory can be accessed and the clock can be
read; readahead and what a read commits make no difference to what is read.
-/

namespace OmegaOsx.Exfat

open ExfatChain List File Option Except Nat Function

open MlsDisk (ok_bind bind_ok guard_ok)

def BLOCK_SIZE : Nat := 4096

abbrev Block := Fin BLOCK_SIZE → UInt8

/-- The device, the pages committed to the `Vmo` and those of the page cache manager, which are up to
date. -/
structure Store where
  device : Nat → Block
  committed : Nat → Option Block
  managed : Nat → Option Block

/-- `discard_range` of the pages from `start` up to `stop`. -/
def Store.discard (s : Store) (start stop : Nat) : Store :=
  { s with managed := fun idx => if start ≤ idx ∧ idx < stop then none else s.managed idx }

namespace File

variable (f : File)

def clusterToOff (cluster : Nat) : Res Nat := do
  let n ← checkedSub cluster EXFAT_RESERVED_CLUSTERS
  pure ((n * f.fs.superBlock.sectPerCluster + f.fs.superBlock.dataStartSector) * f.fs.superBlock.sectorSize)

def getPhysicalCluster (logical : Nat) : Res Nat := do
  let chain ← f.startChain.walk f.fs logical
  pure chain.current

def getSectorId (sectorId : Nat) : Res Nat := do
  let _ ← f.startChain.walkToClusterAtOffset f.fs (sectorId * f.fs.superBlock.sectorSize)
  let cluster ← f.getPhysicalCluster (sectorId / f.fs.superBlock.sectPerCluster)
  let off ← f.clusterToOff cluster
  pure (off / f.fs.superBlock.sectorSize + sectorId % f.fs.superBlock.sectPerCluster)

/-- `read_page_async`. -/
def readPage (s : Store) (idx : Nat) : Res Block :=
  if f.size < idx * PAGE_SIZE then fail .einval "Invalid read size"
  else do
    let sectorId ← f.getSectorId (idx * PAGE_SIZE / f.fs.superBlock.sectorSize)
    pure (s.device (sectorId * f.fs.superBlock.sectorSize / BLOCK_SIZE))

/-- `commit_page` of the page cache manager: a page past the end of the file is zero. -/
def managerPage (s : Store) (idx : Nat) : Res Block :=
  match s.managed idx with
  | some page => .ok page
  | none => do
    let aligned ← alignUp f.size PAGE_SIZE
    if idx < aligned / PAGE_SIZE then f.readPage s idx else pure fun _ => 0

/-- The page as `Vmo::read` finds it. -/
def vmoPage (s : Store) (idx : Nat) : Res Block :=
  match s.committed idx with
  | some page => .ok page
  | none => f.managerPage s idx

/-- The page cache reads up to its own size. -/
def readAt (s : Store) (offset len : Nat) : Res (List Block) :=
  if f.inodeType = .dir then fail .eisdir ""
  else do
    let _ ← add64 offset len
    let readOff := min f.size offset
    let readLen := min len (f.pagesSize - readOff)
    let stop ← alignUp (readOff + readLen) PAGE_SIZE
    (List.range' (readOff / PAGE_SIZE) (stop / PAGE_SIZE - readOff / PAGE_SIZE)).mapM (f.vmoPage s)

/-- `Bid::from_offset` of the place of the direct walk. -/
def physicalBid (curCluster : ExfatChain) (curOffset : Nat) : Nat :=
  (curCluster.current * f.fs.superBlock.clusterSize + curOffset) / BLOCK_SIZE

/-- The end of a round of the loops below. -/
def nextPlace (curCluster : ExfatChain) (curOffset : Nat) : Res (ExfatChain × Nat) :=
  if f.fs.superBlock.clusterSize ≤ curOffset + BLOCK_SIZE then do
    let curCluster ← curCluster.walk f.fs 1
    pure (curCluster, (curOffset + BLOCK_SIZE) % BLOCK_SIZE)
  else .ok (curCluster, curOffset + BLOCK_SIZE)

/-- The loop of `read_direct_at`. -/
def readLoop (f : File) (device : Nat → Block) : Nat → ExfatChain → Nat → Res (List Block)
  | 0, _, _ => .ok []
  | rounds + 1, curCluster, curOffset => do
    let (nextCluster, nextOffset) ← f.nextPlace curCluster curOffset
    let rest ← readLoop f device rounds nextCluster nextOffset
    pure (device (f.physicalBid curCluster curOffset) :: rest)

/-- The loop of `write_direct_at`. -/
def writeLoop (f : File) : List Block → ExfatChain → Nat → (Nat → Block) → Res (Nat → Block)
  | [], _, _, device => .ok device
  | block :: data, curCluster, curOffset, device => do
    let device := Function.update device (f.physicalBid curCluster curOffset) block
    let (nextCluster, nextOffset) ← f.nextPlace curCluster curOffset
    writeLoop f data nextCluster nextOffset device

def alignDown (n align : Nat) : Nat := n / align * align

def readDirectAt (s : Store) (offset len : Nat) : Res (Store × List Block) :=
  if f.inodeType = .dir then fail .eisdir ""
  else if ¬ (offset % PAGE_SIZE = 0 ∧ len % PAGE_SIZE = 0) then fail .einval "not block-aligned"
  else do
    let wanted ← add64 offset len
    let start := alignDown (min f.size offset) f.fs.superBlock.sectorSize
    let stop := alignDown (min f.size wanted) f.fs.superBlock.sectorSize
    let last ← alignUp stop PAGE_SIZE
    let s := s.discard (start / PAGE_SIZE) (last / PAGE_SIZE)
    let (curCluster, curOffset) ← f.startChain.walkToClusterAtOffset f.fs start
    let blocks ← f.readLoop s.device (stop / BLOCK_SIZE - start / BLOCK_SIZE) curCluster curOffset
    pure (s, blocks)

/-- A write of whole blocks; the file with its new size. -/
def writeDirectAt (s : Store) (offset : Nat) (data : List Block) : Res (File × Store) :=
  if f.inodeType = .dir then fail .eisdir ""
  else if offset % PAGE_SIZE ≠ 0 then fail .einval "not block-aligned"
  else do
    let endOffset ← add64 offset (data.length * BLOCK_SIZE)
    let last ← alignUp (min endOffset f.size) PAGE_SIZE
    let s := s.discard (min offset f.size / PAGE_SIZE) (last / PAGE_SIZE)
    let grown ← f.grow endOffset
    let (curCluster, curOffset) ← grown.startChain.walkToClusterAtOffset grown.fs offset
    let device ← grown.writeLoop data curCluster curOffset s.device
    pure ({ grown with size := max f.size endOffset }, { s with device })

end File

/-! ### Files -/

/-- A file whose chain holds its data. -/
structure MappedFile extends File where
  ids : List Nat
  isFile : inodeType = .file
  sequence : startChain.Sequence fs ids
  nodup : ids.Nodup
  width : ids.length < 2 ^ 32
  covered : size ≤ ids.length * fs.superBlock.clusterSize
  paged : size ≤ pagesSize

/-- No cached page differs from the device. -/
def File.Clean (f : File) (s : Store) : Prop :=
  ∀ idx, idx * PAGE_SIZE < f.size →
    (∀ page, s.committed idx = some page → f.readPage s idx = .ok page) ∧
      ∀ page, s.managed idx = some page → f.readPage s idx = .ok page

/-! ### Sizes -/

namespace ExfatSuperBlock

variable (sb : ExfatSuperBlock)

theorem sectPerCluster_mul : sb.sectPerCluster * sb.sectorSize = sb.clusterSize := (pow_add 2 _ _).symm

theorem clusterSize_pos : 0 < sb.clusterSize := Nat.two_pow_pos _

theorem block_eq : BLOCK_SIZE = 2 ^ 12 := rfl

theorem sectorSize_dvd : sb.sectorSize ∣ BLOCK_SIZE := by
  exact Nat.pow_dvd_pow 2 sb.sectorBits.2

theorem block_dvd_clusterSize (le : BLOCK_SIZE ≤ sb.clusterSize) : BLOCK_SIZE ∣ sb.clusterSize := by
  rw [block_eq] at le ⊢
  exact Nat.pow_dvd_pow 2 ((Nat.pow_le_pow_iff_right (lt_succ_self 1)).mp le)

theorem clusterSize_dvd_block (lt : sb.clusterSize < BLOCK_SIZE) : sb.clusterSize ∣ BLOCK_SIZE := by
  rw [block_eq] at lt ⊢
  exact Nat.pow_dvd_pow 2 ((Nat.pow_lt_pow_iff_right (lt_succ_self 1)).mp lt).le

end ExfatSuperBlock

/-! ### The direct walk -/

variable {chain : ExfatChain}

theorem walk_succ {next : ExfatChain} {fs : ExfatFs} {steps : Nat} (h : chain.walk fs steps = .ok next) :
    next.walk fs 1 = chain.walk fs (steps + 1) := by
  obtain ⟨le, h⟩ := guard_ok.mp h
  obtain ⟨cluster, reached, h⟩ := bind_ok.mp h
  cases h
  unfold walk
  dsimp only
  by_cases more : chain.numClusters < steps + 1
  · rw [if_pos more, if_pos (by omega)]
  rw [if_neg more, if_neg (by omega), Nat.sub_sub]
  have same : walkCluster ⟨cluster, chain.numClusters - steps, chain.flags⟩ fs 1 =
      chain.walkCluster fs (steps + 1) := by
    unfold walkCluster at reached ⊢
    have inUse : fatInUse ⟨cluster, chain.numClusters - steps, chain.flags⟩ = chain.fatInUse := rfl
    rw [inUse]
    cases flag : chain.fatInUse with
    | false =>
      rw [flag] at reached
      obtain ⟨-, rfl⟩ := add32_ok.mp reached
      simp only [add32, add_assoc, Bool.not_false, if_true]
    | true =>
      rw [flag] at reached
      have walked : walkFat fs steps chain.current = .ok cluster := reached
      show walkFat fs 1 cluster = walkFat fs (steps + 1) chain.current
      rw [walkFat_succ fs steps, walked, ok_bind]
  rw [same]

/-- The place of the direct walk after some rounds: the number of its cluster in the chain, and the
offset there. -/
def place (clusterSize offset : Nat) : Nat → Nat × Nat
  | 0 => (offset / clusterSize, offset % clusterSize)
  | i + 1 =>
    let (index, curOffset) := place clusterSize offset i
    if clusterSize ≤ curOffset + BLOCK_SIZE then (index + 1, (curOffset + BLOCK_SIZE) % BLOCK_SIZE)
    else (index, curOffset + BLOCK_SIZE)

variable {offset : Nat}

theorem block_dvd_add (aligned : BLOCK_SIZE ∣ offset) (i : Nat) : BLOCK_SIZE ∣ offset + i * BLOCK_SIZE :=
  (Nat.dvd_add_right aligned).mpr (Nat.dvd_mul_left _ _)

/-- With clusters of whole blocks, the walk goes through the file. -/
theorem place_large {clusterSize : Nat} (pos : 0 < clusterSize) (large : BLOCK_SIZE ∣ clusterSize)
    (aligned : BLOCK_SIZE ∣ offset) (i : Nat) : place clusterSize offset i =
      ((offset + i * BLOCK_SIZE) / clusterSize, (offset + i * BLOCK_SIZE) % clusterSize) := by
  induction i with
  | zero => rw [place, Nat.zero_mul, add_zero]
  | succ i ih =>
    rw [place, ih]
    dsimp only
    generalize here : offset + i * BLOCK_SIZE = x
    have next : offset + (i + 1) * BLOCK_SIZE = x + BLOCK_SIZE := by rw [succ_mul, ← here, add_assoc]
    have whole : BLOCK_SIZE ∣ x := here ▸ block_dvd_add aligned i
    have rest : BLOCK_SIZE ∣ x % clusterSize := (dvd_mod_iff large).mpr whole
    have split := div_add_mod x clusterSize
    have lt := mod_lt x pos
    rw [next]
    split
    · next le =>
      -- The block was the last of its cluster.
      have gap : BLOCK_SIZE ∣ clusterSize - x % clusterSize := dvd_sub large rest
      have last : x % clusterSize + BLOCK_SIZE = clusterSize := by
        have := le_of_dvd (by omega) gap
        omega
      have unique := (Nat.div_mod_unique (a := x + BLOCK_SIZE) (d := x / clusterSize + 1) pos).mpr
        ⟨by rw [mul_succ]; omega, pos⟩
      rw [unique.1, unique.2, last, mod_eq_zero_of_dvd large]
    · next gt =>
      have unique := (Nat.div_mod_unique (a := x + BLOCK_SIZE) (c := x % clusterSize + BLOCK_SIZE)
        (d := x / clusterSize) pos).mpr ⟨by omega, by omega⟩
      rw [unique.1, unique.2]

/-- With smaller clusters, it goes to the next cluster for each block. -/
theorem place_small {clusterSize : Nat} (small : clusterSize < BLOCK_SIZE)
    (aligned : clusterSize ∣ offset) (i : Nat) :
    place clusterSize offset i = (offset / clusterSize + i, 0) := by
  induction i with
  | zero => rw [place, mod_eq_zero_of_dvd aligned, add_zero]
  | succ i ih =>
    rw [place, ih]
    dsimp only
    rw [if_pos (by omega), zero_add, mod_self, add_assoc]

/-- Writes blocks one after the other. -/
def writeBlocks : List Nat → List Block → (Nat → Block) → Nat → Block
  | bid :: bids, block :: data, device => writeBlocks bids data (Function.update device bid block)
  | _, _, device => device

/-- A block holds what was written to it last. -/
theorem writeBlocks_last (bids : List Nat) (data : List Block) (len : bids.length = data.length)
    (device : Nat → Block) (b : Nat) :
    (b ∉ bids ∧ writeBlocks bids data device b = device b) ∨
      ∃ i : Nat, bids[i]? = some b ∧ data[i]? = some (writeBlocks bids data device b) ∧ ∀ j, i < j →
        bids[j]? ≠ some b := by
  induction bids generalizing data device with
  | nil => exact .inl ⟨not_mem_nil, by simp [writeBlocks]⟩
  | cons bid bids ih =>
    cases data with
    | nil => cases len
    | cons block data =>
      rw [writeBlocks]
      rcases ih data (succ.inj len) (update device bid block) with ⟨out, same⟩ | ⟨i, at_, value, last⟩
      · rcases eq_or_ne b bid with rfl | other
        · refine .inr ⟨0, rfl, by rw [same, update_self]; rfl, fun j lt here => ?_⟩
          obtain ⟨k, rfl⟩ := exists_eq_succ_of_ne_zero lt.ne'
          exact out (mem_of_getElem? here)
        · rw [same, update_of_ne other]
          exact .inl ⟨by simp [other, out], rfl⟩
      · refine .inr ⟨i + 1, at_, value, fun j lt here => ?_⟩
        obtain ⟨k, rfl⟩ := exists_eq_succ_of_ne_zero (ne_of_gt (zero_lt_of_lt lt))
        exact last k (lt_of_succ_lt_succ lt) here

theorem mapM_ok {α β : Type} {g : α → Res β} {h : α → β} {l : List α} (each : ∀ a ∈ l, g a = .ok (h a)) :
    l.mapM g = .ok (l.map h) :=
  mapM_ok_iff.mpr (forall₂_map_right_iff.mpr (forall₂_same.mpr each))

theorem block_pos : 0 < BLOCK_SIZE := succ_pos _

/-- The block of an offset in a cluster of whole blocks, past the start of the heap. -/
theorem div_block {size inside : Nat} (whole : BLOCK_SIZE ∣ size) (whole' : BLOCK_SIZE ∣ inside)
    (cluster start : Nat) :
    (cluster * size + start + inside) / BLOCK_SIZE =
      cluster * (size / BLOCK_SIZE) + inside / BLOCK_SIZE + start / BLOCK_SIZE := by
  obtain ⟨q, rfl⟩ := whole
  obtain ⟨r, rfl⟩ := whole'
  have sum : cluster * (BLOCK_SIZE * q) + start + BLOCK_SIZE * r = BLOCK_SIZE * (cluster * q + r) + start := by
    rw [Nat.mul_add, Nat.mul_left_comm]
    omega
  rw [sum, mul_add_div block_pos, Nat.mul_div_cancel_left q block_pos, Nat.mul_div_cancel_left r block_pos]

theorem digits_unique {q a b r t : Nat} (lt : r < q) (lt' : t < q) (eq : a * q + r = b * q + t) : a = b ∧ r = t := by
  have pos : 0 < q := zero_lt_of_lt lt
  have left := (Nat.div_mod_unique (d := a) pos).mpr ⟨by rw [mul_comm, add_comm], lt⟩
  have right := (Nat.div_mod_unique (d := b) pos).mpr ⟨by rw [mul_comm, add_comm], lt'⟩
  rw [eq] at left
  exact ⟨left.1.symm.trans right.1, left.2.symm.trans right.2⟩

theorem block_count (offset n : Nat) : (offset + n * BLOCK_SIZE) / BLOCK_SIZE - offset / BLOCK_SIZE = n := by
  rw [add_mul_div_right _ _ (block_pos)]
  omega

variable {data : List Block} {i : Nat}

namespace MappedFile

variable (f : MappedFile)

abbrev clusterSize : Nat := f.fs.superBlock.clusterSize

/-- The cluster of a number in the chain. -/
def cluster (index : Nat) : Nat := f.ids.getD index 0

/-- The place of the direct walk. -/
def at_ (offset i : Nat) : Nat × Nat := place f.fs.superBlock.clusterSize offset i

/-- The block of a round of the direct walk. -/
def directBid (offset i : Nat) : Nat :=
  (f.cluster (f.at_ offset i).1 * f.fs.superBlock.clusterSize + (f.at_ offset i).2) / BLOCK_SIZE

/-- The block of a page. -/
def cachedBid (idx : Nat) : Nat :=
  ((f.cluster (idx * PAGE_SIZE / f.fs.superBlock.clusterSize) - EXFAT_RESERVED_CLUSTERS) *
      f.fs.superBlock.clusterSize + f.fs.superBlock.dataStartSector * f.fs.superBlock.sectorSize +
    idx * PAGE_SIZE % f.fs.superBlock.clusterSize) / BLOCK_SIZE

theorem notDir : ¬ f.inodeType = .dir := by
  rw [f.isFile]
  exact InodeType.noConfusion

theorem walk_cluster {index : Nat} (lt : index < f.ids.length) :
    f.startChain.walk f.fs index = .ok ⟨f.cluster index, f.startChain.numClusters - index, f.startChain.flags⟩ := by
  rw [f.sequence.walk lt, cluster, getD_eq_getElem?_getD, getElem?_eq_getElem lt]
  rfl

theorem nextPlace_eq (here : f.startChain.walk f.fs (f.at_ offset i).1 = .ok chain) :
    f.nextPlace chain (f.at_ offset i).2 =
      (f.startChain.walk f.fs (f.at_ offset (i + 1)).1).map fun next => (next, (f.at_ offset (i + 1)).2) := by
  unfold nextPlace
  have next : f.at_ offset (i + 1) =
      if f.clusterSize ≤ (f.at_ offset i).2 + BLOCK_SIZE then
        ((f.at_ offset i).1 + 1, ((f.at_ offset i).2 + BLOCK_SIZE) % BLOCK_SIZE)
      else ((f.at_ offset i).1, (f.at_ offset i).2 + BLOCK_SIZE) := rfl
  rw [next]
  split
  · rw [walk_succ here]
    rfl
  · rw [here]
    rfl

theorem walkToCluster_eq (offset : Nat) : f.startChain.walkToClusterAtOffset f.fs offset =
      (f.startChain.walk f.fs (f.at_ offset 0).1).map fun chain => (chain, (f.at_ offset 0).2) :=
  (map_eq_pure_bind _ _).symm

theorem at_small (small : f.clusterSize < BLOCK_SIZE) (aligned : BLOCK_SIZE ∣ offset) (i : Nat) :
    f.at_ offset i = (offset / f.clusterSize + i, 0) :=
  place_small small (Nat.dvd_trans (f.fs.superBlock.clusterSize_dvd_block small) aligned) i

theorem at_large (large : BLOCK_SIZE ≤ f.clusterSize) (aligned : BLOCK_SIZE ∣ offset) (i : Nat) :
    f.at_ offset i = ((offset + i * BLOCK_SIZE) / f.clusterSize, (offset + i * BLOCK_SIZE) % f.clusterSize) :=
  place_large f.fs.superBlock.clusterSize_pos (f.fs.superBlock.block_dvd_clusterSize large) aligned i

variable {n idx : Nat}

/-- Each block of a range of the file lies in a cluster of the chain. -/
theorem at_lt (aligned : BLOCK_SIZE ∣ offset) (within : offset + n * BLOCK_SIZE ≤ f.size) (lt : i < n) :
    (f.at_ offset i).1 < f.ids.length := by
  have pos := f.fs.superBlock.clusterSize_pos
  have inside : offset + i * BLOCK_SIZE < f.ids.length * f.clusterSize := by
    have step : i * BLOCK_SIZE < n * BLOCK_SIZE := Nat.mul_lt_mul_of_pos_right lt (succ_pos _)
    have : f.size ≤ f.ids.length * f.clusterSize := f.covered
    omega
  have bound := (div_lt_iff_lt_mul pos).mpr inside
  rcases lt_or_ge f.clusterSize BLOCK_SIZE with small | large
  · rw [f.at_small small aligned]
    refine lt_of_le_of_lt ?_ bound
    have le : i * f.clusterSize ≤ i * BLOCK_SIZE := mul_le_mul_left i small.le
    calc offset / f.clusterSize + i = (offset + i * f.clusterSize) / f.clusterSize := (add_mul_div_right _ _ pos).symm
      _ ≤ (offset + i * BLOCK_SIZE) / f.clusterSize := Nat.div_le_div_right (Nat.add_le_add_left le offset)
  · rw [f.at_large large aligned]
    exact bound

section Loops

variable (aligned : BLOCK_SIZE ∣ offset) (within : offset + n * BLOCK_SIZE ≤ f.size)

include aligned within

theorem walk_at (lt : i < n) : ∃ chain, f.startChain.walk f.fs (f.at_ offset i).1 = .ok chain ∧
    f.physicalBid chain (f.at_ offset i).2 = f.directBid offset i :=
  ⟨_, f.walk_cluster (f.at_lt aligned within lt), rfl⟩

/-- Only past the last block can the walk fail. -/
theorem eq_of_walk_error {e : Fault} (fails : f.startChain.walk f.fs (f.at_ offset i).1 = .error e) (le : i ≤ n) :
    i = n := by
  by_contra more
  obtain ⟨_, walks, -⟩ := f.walk_at aligned within (lt_of_le_of_ne le more)
  cases fails.symm.trans walks

/-- The loop reads the blocks of the walk, and fails if the walk cannot go on at the end. -/
theorem readLoop_eq (device : Nat → Block) (rounds i : Nat) (sum : i + rounds = n)
    (here : f.startChain.walk f.fs (f.at_ offset i).1 = .ok chain) : f.readLoop device rounds chain (f.at_ offset i).2 =
      (f.startChain.walk f.fs (f.at_ offset n).1).map fun _ =>
        (range' i rounds).map fun j => device (f.directBid offset j) := by
  induction rounds generalizing i chain with
  | zero =>
    obtain rfl : i = n := sum
    rw [here]
    rfl
  | succ rounds ih =>
    obtain ⟨chain', found, bid⟩ := f.walk_at aligned within (i := i) (by omega)
    cases here.symm.trans found
    rw [readLoop, f.nextPlace_eq here, bid]
    cases next : f.startChain.walk f.fs (f.at_ offset (i + 1)).1 with
    | error e =>
      have last := f.eq_of_walk_error aligned within next (by omega)
      rw [← last, next]
      rfl
    | ok chain'' =>
      show (f.readLoop device rounds chain'' (f.at_ offset (i + 1)).2 >>= fun rest => _) = _
      rw [ih (i + 1) (by omega) next]
      exact (bind_map_left _ _ _).trans (map_eq_pure_bind _ _).symm

/-- The same for the loop that writes. -/
theorem writeLoop_eq (data : List Block) (device : Nat → Block) (i : Nat) (sum : i + data.length = n)
    (here : f.startChain.walk f.fs (f.at_ offset i).1 = .ok chain) : f.writeLoop data chain (f.at_ offset i).2 device =
      (f.startChain.walk f.fs (f.at_ offset n).1).map fun _ =>
        writeBlocks ((range' i data.length).map (f.directBid offset)) data device := by
  induction data generalizing i chain device with
  | nil =>
    obtain rfl : i = n := sum
    rw [here]
    rfl
  | cons block data ih =>
    rw [length_cons] at sum
    obtain ⟨chain', found, bid⟩ := f.walk_at aligned within (i := i) (by omega)
    cases here.symm.trans found
    rw [writeLoop, f.nextPlace_eq here, bid]
    cases next : f.startChain.walk f.fs (f.at_ offset (i + 1)).1 with
    | error e =>
      have last := f.eq_of_walk_error aligned within next (by omega)
      rw [← last, next]
      rfl
    | ok chain'' =>
      show f.writeLoop data chain'' (f.at_ offset (i + 1)).2 _ = _
      rw [ih _ (i + 1) (by omega) next, length_cons]
      rfl

end Loops

/-! ### The cached pages -/

theorem cluster_inHeap {index : Nat} (lt : index < f.ids.length) : EXFAT_RESERVED_CLUSTERS ≤ f.cluster index := by
  rw [cluster, getD_eq_getElem?_getD, getElem?_eq_getElem lt]
  exact (f.sequence.inHeap _ (getElem_mem lt)).1

theorem page_lt (lt : idx * PAGE_SIZE < f.size) : idx * PAGE_SIZE / f.clusterSize < f.ids.length :=
  (div_lt_iff_lt_mul f.fs.superBlock.clusterSize_pos).mpr (lt.trans_le f.covered)

theorem readPage_eq (s : Store) (lt : idx * PAGE_SIZE < f.size) :
    f.readPage s idx = .ok (s.device (f.cachedBid idx)) := by
  have index := f.page_lt lt
  have pos : 0 < f.fs.superBlock.sectorSize := Nat.two_pow_pos _
  have whole : idx * PAGE_SIZE / f.fs.superBlock.sectorSize * f.fs.superBlock.sectorSize = idx * PAGE_SIZE :=
    Nat.div_mul_cancel (Nat.dvd_trans f.fs.superBlock.sectorSize_dvd (Nat.dvd_mul_left _ _))
  have sector : idx * PAGE_SIZE / f.fs.superBlock.sectorSize / f.fs.superBlock.sectPerCluster =
      idx * PAGE_SIZE / f.clusterSize := by
    rw [Nat.div_div_eq_div_mul, mul_comm f.fs.superBlock.sectorSize, f.fs.superBlock.sectPerCluster_mul]
  have inCluster : idx * PAGE_SIZE / f.fs.superBlock.sectorSize % f.fs.superBlock.sectPerCluster *
      f.fs.superBlock.sectorSize = idx * PAGE_SIZE % f.clusterSize := by
    rw [← mul_mod_mul_right, whole, f.fs.superBlock.sectPerCluster_mul]
  have off : f.clusterToOff (f.cluster (idx * PAGE_SIZE / f.clusterSize)) = .ok
      (((f.cluster (idx * PAGE_SIZE / f.clusterSize) - EXFAT_RESERVED_CLUSTERS) *
        f.fs.superBlock.sectPerCluster + f.fs.superBlock.dataStartSector) * f.fs.superBlock.sectorSize) := by
    rw [clusterToOff, checkedSub_ok.mpr ⟨f.cluster_inHeap index, rfl⟩]
    rfl
  rw [readPage, if_neg lt.le.not_gt, getSectorId, getPhysicalCluster,
    walkToClusterAtOffset, whole, sector, f.walk_cluster index]
  simp only [ok_bind, pure, Except.pure, off]
  rw [Nat.mul_div_cancel _ pos, Nat.add_mul, inCluster, Nat.add_mul, mul_assoc, f.fs.superBlock.sectPerCluster_mul]
  rfl

/-- A file is far from the end of the address space. -/
theorem size_lt : f.size + PAGE_SIZE < 2 ^ 64 := by
  have bits : f.clusterSize ≤ 2 ^ 25 := Nat.pow_le_pow_right (succ_pos 1) f.fs.superBlock.clusterBits
  have bound : f.ids.length * f.clusterSize ≤ 2 ^ 32 * 2 ^ 25 := Nat.mul_le_mul f.width.le bits
  have : f.size ≤ f.ids.length * f.clusterSize := f.covered
  have page : PAGE_SIZE = 4096 := rfl
  omega

theorem alignUp_eq (aligned : PAGE_SIZE ∣ n) (le : n ≤ f.size) : alignUp n PAGE_SIZE = .ok n := by
  have := f.size_lt
  unfold PAGE_SIZE at *
  rw [alignUp, if_pos (by omega)]
  congr 1
  omega

theorem managerPage_eq (s : Store) (lt : idx * PAGE_SIZE < f.size) (none_ : s.managed idx = none) :
    f.managerPage s idx = f.readPage s idx := by
  have := f.size_lt
  rw [managerPage, none_]
  unfold PAGE_SIZE at *
  rw [alignUp, if_pos (by omega), ok_bind, if_pos]
  omega

/-- A clean page is what the backend would read. -/
theorem vmoPage_clean {s : Store} (clean : f.Clean s) (lt : idx * PAGE_SIZE < f.size) :
    f.vmoPage s idx = .ok (s.device (f.cachedBid idx)) := by
  rw [← f.readPage_eq s lt, vmoPage]
  cases committed : s.committed idx with
  | some page => exact ((clean idx lt).1 page committed).symm
  | none =>
    cases managed : s.managed idx with
    | some page =>
      rw [(clean idx lt).2 page managed, managerPage, managed]
    | none => exact f.managerPage_eq s lt managed

theorem page_offset (aligned : BLOCK_SIZE ∣ offset) (i : Nat) :
    (offset / PAGE_SIZE + i) * PAGE_SIZE = offset + i * BLOCK_SIZE := by
  have whole : offset / PAGE_SIZE * PAGE_SIZE = offset := Nat.div_mul_cancel aligned
  rw [Nat.add_mul, whole]
  rfl

/-- The store after a direct write. -/
def written (s : Store) (offset : Nat) (data : List Block) : Store :=
  { s.discard (offset / PAGE_SIZE) (offset / PAGE_SIZE + data.length) with
    device := writeBlocks ((List.range' 0 data.length).map (f.directBid offset)) data s.device }

section Reads

variable (aligned : BLOCK_SIZE ∣ offset) (within : offset + n * BLOCK_SIZE ≤ f.size)

include aligned within

theorem page_inside (lt : i < n) : (offset / PAGE_SIZE + i) * PAGE_SIZE < f.size := by
  have step : i * BLOCK_SIZE < n * BLOCK_SIZE := Nat.mul_lt_mul_of_pos_right lt block_pos
  rw [page_offset aligned]
  omega

/-- A cached read of whole blocks takes the pages of the range. -/
theorem readAt_eq (s : Store) :
    f.readAt s offset (n * BLOCK_SIZE) = (range' (offset / PAGE_SIZE) n).mapM (f.vmoPage s) := by
  have := f.size_lt
  have start : min f.size offset = offset := min_eq_right (by omega)
  have len : min (n * BLOCK_SIZE) (f.pagesSize - offset) = n * BLOCK_SIZE := by
    have := f.paged
    exact min_eq_left (by omega)
  have stop : PAGE_SIZE ∣ offset + n * BLOCK_SIZE := block_dvd_add aligned n
  rw [readAt, if_neg f.notDir, add64, if_pos (by omega), ok_bind]
  dsimp only
  rw [start, len, f.alignUp_eq stop within, ok_bind]
  rw [show (offset + n * BLOCK_SIZE) / PAGE_SIZE - offset / PAGE_SIZE = n from block_count offset n]

/-- A direct read takes the blocks of the walk. -/
theorem readDirectAt_eq (s : Store) : (f.readDirectAt s offset (n * BLOCK_SIZE)).map Prod.snd =
      (f.startChain.walk f.fs (f.at_ offset n).1).map fun _ =>
        (range' 0 n).map fun i => s.device (f.directBid offset i) := by
  have := f.size_lt
  have stop := block_dvd_add aligned n
  have down : ∀ {m}, BLOCK_SIZE ∣ m → m ≤ f.size →
    alignDown (min f.size m) f.fs.superBlock.sectorSize = m := by
    intro m whole le
    rw [min_eq_right le]
    exact Nat.div_mul_cancel (Nat.dvd_trans f.fs.superBlock.sectorSize_dvd whole)
  have whole : offset % PAGE_SIZE = 0 ∧ n * BLOCK_SIZE % PAGE_SIZE = 0 :=
    ⟨mod_eq_zero_of_dvd aligned, mul_mod_left n BLOCK_SIZE⟩
  rw [readDirectAt, if_neg f.notDir, if_neg (not_not_intro whole), add64, if_pos (by omega), ok_bind]
  dsimp only
  rw [down aligned (by omega), down stop within, f.alignUp_eq stop within, block_count, f.walkToCluster_eq]
  cases first : f.startChain.walk f.fs (f.at_ offset 0).1 with
  | error e =>
    rw [← f.eq_of_walk_error aligned within first (zero_le _), first]
    rfl
  | ok chain =>
    show ((f.readLoop s.device n chain (f.at_ offset 0).2 >>= fun blocks => _).map Prod.snd) = _
    rw [f.readLoop_eq aligned within s.device n 0 (zero_add n) first]
    cases f.startChain.walk f.fs (f.at_ offset n).1 with
    | error e => rfl
    | ok _ => rfl

theorem writeDirectAt_eq (s : Store) (len : data.length = n) : f.writeDirectAt s offset data =
      (f.startChain.walk f.fs (f.at_ offset n).1).map fun _ => (f.toFile, f.written s offset data) := by
  subst len
  have := f.size_lt
  have whole : ¬ offset % PAGE_SIZE ≠ 0 := not_not_intro (mod_eq_zero_of_dvd aligned)
  have stop := block_dvd_add aligned data.length
  have last : (offset + data.length * BLOCK_SIZE) / PAGE_SIZE = offset / PAGE_SIZE + data.length :=
    add_mul_div_right offset data.length (succ_pos _)
  have noGrow : f.grow (offset + data.length * BLOCK_SIZE) = .ok f.toFile := by
    rw [grow, if_neg within.not_gt]
  rw [writeDirectAt, if_neg f.notDir, if_neg whole, add64, if_pos (by omega), ok_bind, min_eq_left within,
    f.alignUp_eq stop within, ok_bind]
  rw [min_eq_left (le_trans (le_add_right _ _) within), noGrow, ok_bind, last, f.walkToCluster_eq, max_eq_left within]
  cases first : f.startChain.walk f.fs (f.at_ offset 0).1 with
  | error e =>
    rw [← f.eq_of_walk_error aligned within first (zero_le _), first]
    rfl
  | ok chain =>
    show (f.writeLoop data chain (f.at_ offset 0).2 s.device >>= fun device => _) = _
    rw [f.writeLoop_eq aligned within data s.device 0 (zero_add _) first]
    exact (bind_map_left _ _ _).trans (map_eq_pure_bind _ _).symm

/-- After a direct write, a page that is not committed is read from the device. -/
theorem vmoPage_written (s : Store) (len : data.length = n) (lt : i < n) :
    f.vmoPage (f.written s offset data) (offset / PAGE_SIZE + i) =
      .ok ((s.committed (offset / PAGE_SIZE + i)).getD
        ((f.written s offset data).device (f.cachedBid (offset / PAGE_SIZE + i)))) := by
  subst len
  have inside := f.page_inside aligned within lt
  have same : (f.written s offset data).committed = s.committed := rfl
  rw [vmoPage, same]
  cases s.committed (offset / PAGE_SIZE + i) with
  | some old => rfl
  | none =>
    have dropped : (f.written s offset data).managed (offset / PAGE_SIZE + i) = none :=
      if_pos ⟨le_add_right _ _, Nat.add_lt_add_left lt _⟩
    exact (f.managerPage_eq _ inside dropped).trans (f.readPage_eq _ inside)

end Reads

/-! ### Where the two ways meet -/

/-- Each round of the direct walk takes the block of its page, and no block twice. -/
structure Meets (offset n : Nat) : Prop where
  same : ∀ {i}, i < n → f.directBid offset i = f.cachedBid (offset / PAGE_SIZE + i)
  apart : ∀ {i j}, i < j → j < n → f.directBid offset i ≠ f.directBid offset j

/-- Where direct and cached access agree on `n` blocks from `offset`, for pages committed as
`committed` says. -/
structure Agrees (offset n : Nat) (committed : Nat → Bool) : Prop where
  /-- The chain can be walked to where the request ends. -/
  walks : ∃ chain, f.startChain.walk f.fs
    (if BLOCK_SIZE ≤ f.fs.superBlock.clusterSize then (offset + n * BLOCK_SIZE) / f.fs.superBlock.clusterSize
      else offset / f.fs.superBlock.clusterSize + n) = .ok chain
  /-- The heap starts two clusters into the volume. -/
  heapStart : BLOCK_SIZE ≤ f.fs.superBlock.clusterSize → 0 < n →
    f.fs.superBlock.dataStartSector * f.fs.superBlock.sectorSize / BLOCK_SIZE =
      EXFAT_RESERVED_CLUSTERS * f.fs.superBlock.clusterSize / BLOCK_SIZE
  /-- Small clusters: the next cluster for each block is where its page is. -/
  smallSame : f.fs.superBlock.clusterSize < BLOCK_SIZE → ∀ {i}, i < n →
    f.cluster (offset / f.fs.superBlock.clusterSize + i) * f.fs.superBlock.clusterSize / BLOCK_SIZE =
      ((f.cluster (offset / f.fs.superBlock.clusterSize + i * (BLOCK_SIZE / f.fs.superBlock.clusterSize)) -
        EXFAT_RESERVED_CLUSTERS) * f.fs.superBlock.clusterSize +
          f.fs.superBlock.dataStartSector * f.fs.superBlock.sectorSize) / BLOCK_SIZE
  smallApart : f.fs.superBlock.clusterSize < BLOCK_SIZE → ∀ {i j}, i < j → j < n →
    f.cluster (offset / f.fs.superBlock.clusterSize + i) * f.fs.superBlock.clusterSize / BLOCK_SIZE ≠
      f.cluster (offset / f.fs.superBlock.clusterSize + j) * f.fs.superBlock.clusterSize / BLOCK_SIZE
  uncommitted : ∀ {i}, i < n → committed (offset / PAGE_SIZE + i) = false

theorem cluster_inj {a b : Nat} (lt : a < f.ids.length) (lt' : b < f.ids.length) (same : f.cluster a = f.cluster b) :
    a = b := by
  rw [cluster, cluster, getD_eq_getElem?_getD, getD_eq_getElem?_getD, getElem?_eq_getElem lt,
    getElem?_eq_getElem lt'] at same
  exact (getElem_inj f.nodup).mp same

section Large

variable (aligned : BLOCK_SIZE ∣ offset) (within : offset + n * BLOCK_SIZE ≤ f.size)
  (large : BLOCK_SIZE ≤ f.clusterSize)

include aligned large

theorem inside_dvd (i : Nat) : BLOCK_SIZE ∣ (offset + i * BLOCK_SIZE) % f.clusterSize :=
  (dvd_mod_iff (f.fs.superBlock.block_dvd_clusterSize large)).mpr (block_dvd_add aligned i)

theorem directBid_large (i : Nat) :
    f.directBid offset i = f.cluster ((offset + i * BLOCK_SIZE) / f.clusterSize) * (f.clusterSize / BLOCK_SIZE) +
        (offset + i * BLOCK_SIZE) % f.clusterSize / BLOCK_SIZE := by
  have whole : BLOCK_SIZE ∣ f.clusterSize := f.fs.superBlock.block_dvd_clusterSize large
  rw [directBid, f.at_large large aligned]
  exact div_block whole (f.inside_dvd aligned large i) _ 0

theorem cachedBid_large (i : Nat) : f.cachedBid (offset / PAGE_SIZE + i) =
      (f.cluster ((offset + i * BLOCK_SIZE) / f.clusterSize) - EXFAT_RESERVED_CLUSTERS) * (f.clusterSize / BLOCK_SIZE) +
        (offset + i * BLOCK_SIZE) % f.clusterSize / BLOCK_SIZE +
        f.fs.superBlock.dataStartSector * f.fs.superBlock.sectorSize / BLOCK_SIZE := by
  rw [cachedBid, page_offset aligned]
  exact div_block (f.fs.superBlock.block_dvd_clusterSize large) (f.inside_dvd aligned large i) _ _

include within

/-- Whole blocks: the ways meet exactly if the heap starts where the direct walk has it. -/
theorem meets_large : f.Meets offset n ↔ (0 < n →
      f.fs.superBlock.dataStartSector * f.fs.superBlock.sectorSize / BLOCK_SIZE =
        EXFAT_RESERVED_CLUSTERS * f.clusterSize / BLOCK_SIZE) := by
  have pos := f.fs.superBlock.clusterSize_pos
  have whole : BLOCK_SIZE ∣ f.clusterSize := f.fs.superBlock.block_dvd_clusterSize large
  have inFile : ∀ {i}, i < n → (offset + i * BLOCK_SIZE) / f.clusterSize < f.ids.length := by
    intro i lt
    have := f.at_lt aligned within lt
    rwa [f.at_large large aligned] at this
  have same : ∀ {i}, i < n → (f.directBid offset i = f.cachedBid (offset / PAGE_SIZE + i) ↔
      f.fs.superBlock.dataStartSector * f.fs.superBlock.sectorSize / BLOCK_SIZE =
        EXFAT_RESERVED_CLUSTERS * f.clusterSize / BLOCK_SIZE) := by
    intro i lt
    rw [f.directBid_large aligned large, f.cachedBid_large aligned large, Nat.mul_div_assoc _ whole]
    -- The direct walk counts the reserved clusters in.
    have counted := Nat.sub_add_cancel (f.cluster_inHeap (inFile lt))
    have product := congrArg (· * (f.clusterSize / BLOCK_SIZE)) counted
    rw [Nat.add_mul] at product
    omega
  constructor
  · intro meets some_
    exact (same some_).mp (meets.same some_)
  intro start
  refine ⟨fun {i} lt => (same lt).mpr (start (zero_lt_of_lt lt)), fun {i j} lt lt' eq => ?_⟩
  rw [f.directBid_large aligned large, f.directBid_large aligned large] at eq
  have inCluster : ∀ x, x % f.clusterSize / BLOCK_SIZE < f.clusterSize / BLOCK_SIZE :=
    fun x => div_lt_div_of_lt_of_dvd whole (mod_lt x pos)
  obtain ⟨cluster, place⟩ := digits_unique (inCluster _) (inCluster _) eq
  have index := f.cluster_inj (inFile (lt.trans lt')) (inFile lt') cluster
  have inside : (offset + i * BLOCK_SIZE) % f.clusterSize = (offset + j * BLOCK_SIZE) % f.clusterSize := by
    rw [← Nat.div_mul_cancel (f.inside_dvd aligned large i), place, Nat.div_mul_cancel (f.inside_dvd aligned large j)]
  have offsets : offset + i * BLOCK_SIZE = offset + j * BLOCK_SIZE := by
    rw [← div_add_mod (offset + i * BLOCK_SIZE) f.clusterSize, index, inside, div_add_mod]
  exact lt.ne (eq_of_mul_eq_mul_right block_pos (add_left_cancel offsets))

end Large

section Small

variable (aligned : BLOCK_SIZE ∣ offset) (small : f.clusterSize < BLOCK_SIZE)

include aligned small

theorem directBid_small (i : Nat) : f.directBid offset i =
      f.cluster (offset / f.clusterSize + i) * f.clusterSize / BLOCK_SIZE := by
  rw [directBid, f.at_small small aligned]
  rfl

theorem cachedBid_small (i : Nat) : f.cachedBid (offset / PAGE_SIZE + i) =
      ((f.cluster (offset / f.clusterSize + i * (BLOCK_SIZE / f.clusterSize)) -
        EXFAT_RESERVED_CLUSTERS) * f.clusterSize +
          f.fs.superBlock.dataStartSector * f.fs.superBlock.sectorSize) / BLOCK_SIZE := by
  have whole := f.fs.superBlock.clusterSize_dvd_block small
  have times : i * BLOCK_SIZE = i * (BLOCK_SIZE / f.clusterSize) * f.clusterSize := by
    rw [mul_assoc, Nat.div_mul_cancel whole]
  have inside : (offset + i * BLOCK_SIZE) % f.clusterSize = 0 :=
    mod_eq_zero_of_dvd (Nat.dvd_trans whole (block_dvd_add aligned i))
  rw [cachedBid, page_offset aligned, inside, times, add_mul_div_right _ _ f.fs.superBlock.clusterSize_pos, add_zero]

end Small

theorem agrees_iff (aligned : BLOCK_SIZE ∣ offset) (within : offset + n * BLOCK_SIZE ≤ f.size)
    (committed : Nat → Bool) : f.Agrees offset n committed ↔
      (∃ chain, f.startChain.walk f.fs (f.at_ offset n).1 = .ok chain) ∧ f.Meets offset n ∧
        ∀ {i}, i < n → committed (offset / PAGE_SIZE + i) = false := by
  rcases lt_or_ge f.clusterSize BLOCK_SIZE with small | large
  · have index : (f.at_ offset n).1 =
        if BLOCK_SIZE ≤ f.clusterSize then (offset + n * BLOCK_SIZE) / f.clusterSize
        else offset / f.clusterSize + n := by
      rw [if_neg small.not_ge, f.at_small small aligned]
    rw [index]
    constructor
    · intro agrees
      refine ⟨agrees.walks, ⟨fun {i} lt => ?_, fun {i j} lt lt' => ?_⟩, agrees.uncommitted⟩
      · rw [f.directBid_small aligned small, f.cachedBid_small aligned small]
        exact agrees.smallSame small lt
      · rw [f.directBid_small aligned small, f.directBid_small aligned small]
        exact agrees.smallApart small lt lt'
    · rintro ⟨walks, meets, uncommitted⟩
      refine ⟨walks, fun large => absurd large small.not_ge, fun _ {i} lt => ?_,
        fun _ {i j} lt lt' => ?_, uncommitted⟩
      · rw [← f.directBid_small aligned small, ← f.cachedBid_small aligned small]
        exact meets.same lt
      · rw [← f.directBid_small aligned small, ← f.directBid_small aligned small]
        exact meets.apart lt lt'
  · have index : (f.at_ offset n).1 =
        if BLOCK_SIZE ≤ f.clusterSize then (offset + n * BLOCK_SIZE) / f.clusterSize
        else offset / f.clusterSize + n := by
      rw [if_pos large, f.at_large large aligned]
    rw [f.meets_large aligned within large, index]
    constructor
    · intro agrees
      exact ⟨agrees.walks, agrees.heapStart large, agrees.uncommitted⟩
    · rintro ⟨walks, start, uncommitted⟩
      exact ⟨walks, fun _ => start, fun small => absurd large small.not_ge, fun small => absurd large small.not_ge,
        uncommitted⟩

/-! ### Agreement -/

/-- A direct read returns what a cached read returns, and a cached read returns what a direct write has
written. -/
def AgreesOn (offset n : Nat) (s : Store) : Prop :=
  (f.readDirectAt s offset (n * BLOCK_SIZE)).map Prod.snd = f.readAt s offset (n * BLOCK_SIZE) ∧
    ∀ data, data.length = n → ∃ g s', f.writeDirectAt s offset data = .ok (g, s') ∧
      g.readAt s' offset (n * BLOCK_SIZE) = .ok data

theorem directBids_getElem? {f : MappedFile} {k b : Nat}
    (h : ((range' 0 n).map (f.directBid offset))[k]? = some b) : k < n ∧ f.directBid offset k = b := by
  obtain ⟨lt, eq⟩ := List.getElem?_eq_some_iff.mp h
  rw [getElem_map, getElem_range', zero_add, one_mul] at eq
  exact ⟨by simpa using lt, eq⟩

section Agreement

variable (aligned : BLOCK_SIZE ∣ offset) (within : offset + n * BLOCK_SIZE ≤ f.size)

include aligned within

variable {s : Store}

theorem readAt_ok {page : Nat → Block}
    (each : ∀ {i}, i < n → f.vmoPage s (offset / PAGE_SIZE + i) = .ok (page i)) :
    f.readAt s offset (n * BLOCK_SIZE) = .ok ((range' 0 n).map page) := by
  have shift : range' (offset / PAGE_SIZE) n = (range' 0 n).map (offset / PAGE_SIZE + ·) := by
    rw [map_add_range', add_zero]
  rw [f.readAt_eq aligned within, shift, mapM_map]
  refine mapM_ok fun i mem => each ?_
  have := mem_range'_1.mp mem
  omega

theorem readAt_clean (clean : f.Clean s) : f.readAt s offset (n * BLOCK_SIZE) =
      .ok ((range' 0 n).map fun i => s.device (f.cachedBid (offset / PAGE_SIZE + i))) :=
  f.readAt_ok aligned within fun lt => f.vmoPage_clean clean (f.page_inside aligned within lt)

theorem readAt_written (s : Store) (len : data.length = n) :
    f.readAt (f.written s offset data) offset (n * BLOCK_SIZE) =
      .ok ((range' 0 n).map fun i => (s.committed (offset / PAGE_SIZE + i)).getD
        ((f.written s offset data).device (f.cachedBid (offset / PAGE_SIZE + i)))) :=
  f.readAt_ok aligned within fun lt => f.vmoPage_written aligned within s len lt

theorem agreesOn_of_meets {committed : Nat → Bool}
    (walks : ∃ chain, f.startChain.walk f.fs (f.at_ offset n).1 = .ok chain) (meets : f.Meets offset n)
    (uncommitted : ∀ {i}, i < n → committed (offset / PAGE_SIZE + i) = false) (clean : f.Clean s)
    (pages : ∀ idx, (s.committed idx).isSome = committed idx) : f.AgreesOn offset n s := by
  obtain ⟨chain, walks⟩ := walks
  constructor
  · rw [f.readDirectAt_eq aligned within, walks, f.readAt_clean aligned within clean]
    refine congrArg ok (map_congr_left fun i mem => ?_)
    have lt : i < n := by
      have := mem_range'_1.mp mem
      omega
    rw [meets.same lt]
  intro data len
  refine ⟨f.toFile, f.written s offset data, ?_, ?_⟩
  · rw [f.writeDirectAt_eq aligned within s len, walks]
    rfl
  rw [f.readAt_written aligned within s len]
  refine congrArg ok (ext_getElem (by simp [len]) fun i lt lt' => ?_)
  have inRange : i < n := by simpa using lt
  have none_ : s.committed (offset / PAGE_SIZE + i) = none := by
    refine not_isSome_iff_eq_none.mp ?_
    rw [pages, uncommitted inRange]
    exact Bool.false_ne_true
  rw [getElem_map, getElem_range', zero_add, one_mul, none_, ← meets.same inRange]
  -- The last write to the block is the one of this round.
  subst len
  rcases writeBlocks_last ((range' 0 data.length).map (f.directBid offset)) data
    (by simp) s.device (f.directBid offset i) with ⟨out, -⟩ | ⟨k, at_, value, -⟩
  · exact absurd (List.mem_map_of_mem (mem_range'_1.mpr ⟨zero_le _, by omega⟩)) out
  obtain ⟨inRange', same⟩ := directBids_getElem? at_
  have eq : k = i := by
    rcases lt_trichotomy k i with before | eq | after
    · exact absurd same (meets.apart before inRange)
    · exact eq
    · exact absurd same.symm (meets.apart after inRange')
  subst eq
  exact (some.inj ((getElem?_eq_getElem lt').symm.trans value)).symm

/-- A store with the same block everywhere, and pages committed as given. -/
def uniform (block : Block) (committed : Nat → Bool) : Store where
  device := fun _ => block
  committed := fun idx => if committed idx then some block else none
  managed := fun _ => none

omit aligned within in
theorem isSome_uniform (block : Block) (committed : Nat → Bool) (idx : Nat) :
    ((uniform block committed).committed idx).isSome = committed idx := by
  unfold uniform
  dsimp only
  cases committed idx with
  | false => rfl
  | true => rfl

omit aligned within in
theorem clean_uniform (block : Block) (committed : Nat → Bool) : f.Clean (uniform block committed) := by
  intro idx lt
  rw [f.readPage_eq _ lt]
  refine ⟨fun page some_ => ?_, fun page some_ => ?_⟩
  · unfold uniform at some_
    dsimp only at some_
    split at some_
    · exact congrArg ok (some.inj some_)
    · cases some_
  · cases some_

/-- A store on which the ways agree for every data tells the blocks apart. -/
theorem meets_of_agreesOn {committed : Nat → Bool} {blank mark : Block} (ne : mark ≠ blank)
    (agrees : f.AgreesOn offset n (uniform blank committed)) :
    (∃ chain, f.startChain.walk f.fs (f.at_ offset n).1 = .ok chain) ∧ f.Meets offset n ∧
      ∀ {i}, i < n → committed (offset / PAGE_SIZE + i) = false := by
  have walks : ∃ chain, f.startChain.walk f.fs (f.at_ offset n).1 = .ok chain := by
    obtain ⟨g, s', write, -⟩ := agrees.2 (replicate n blank) length_replicate
    rw [f.writeDirectAt_eq aligned within _ length_replicate] at write
    cases walk : f.startChain.walk f.fs (f.at_ offset n).1 with
    | error e =>
      rw [walk] at write
      cases write
    | ok chain => exact ⟨chain, rfl⟩
  have each : ∀ {i}, i < n → committed (offset / PAGE_SIZE + i) = false ∧
      f.directBid offset i = f.cachedBid (offset / PAGE_SIZE + i) ∧
      ∀ {j}, i < j → j < n → f.directBid offset i ≠ f.directBid offset j := by
    intro i lt
    -- Write a block that differs from the others in round `i` only.
    have len : ((replicate n blank).set i mark).length = n := by simp
    obtain ⟨g, s', write, read⟩ := agrees.2 _ len
    obtain ⟨chain, walk⟩ := walks
    rw [f.writeDirectAt_eq aligned within _ len, walk] at write
    cases write
    rw [f.readAt_written aligned within _ len] at read
    have value := congrArg (·[i]?) (ok.inj read)
    simp only [getElem?_map, getElem?_range' lt, map_some, zero_add, one_mul,
      getElem?_set_self (show i < (replicate n blank).length by simpa using lt), some.injEq] at value
    have free : committed (offset / PAGE_SIZE + i) = false := by
      cases taken : committed (offset / PAGE_SIZE + i) with
      | false => rfl
      | true => exact absurd (by simpa [uniform, taken] using value.symm) ne
    have device : (f.written (uniform blank committed) offset ((replicate n blank).set i mark)).device
        (f.cachedBid (offset / PAGE_SIZE + i)) = mark := by
      simpa [uniform, free] using value
    refine ⟨free, ?_⟩
    rcases writeBlocks_last ((range' 0 ((replicate n blank).set i mark).length).map (f.directBid offset))
      ((replicate n blank).set i mark) (by simp) (uniform blank committed).device
      (f.cachedBid (offset / PAGE_SIZE + i)) with ⟨-, same⟩ | ⟨k, at_, wrote, last⟩
    · exact absurd (device.symm.trans same) ne
    have marked : ((replicate n blank).set i mark)[k]? = some mark := wrote.trans (congrArg some device)
    have here : i = k := by
      by_contra other
      rw [getElem?_set_ne other] at marked
      exact ne (eq_of_mem_replicate (mem_of_getElem? marked))
    subst here
    refine ⟨(directBids_getElem? at_).2, fun {j} after inRange same => ?_⟩
    refine last j after ?_
    rw [getElem?_map, getElem?_range' (by simpa using inRange), map_some, zero_add,
      one_mul, ← same, (directBids_getElem? at_).2]
  exact ⟨walks, ⟨fun lt => (each lt).2.1, fun lt lt' => (each (lt.trans lt')).2.2 lt lt'⟩,
    fun lt => (each lt).1⟩

end Agreement

/-- Direct and cached access agree on a range of whole blocks of a file, whatever clean store it is
on with the given committed pages, exactly under the conditions of `Agrees`. -/
theorem direct_agrees_iff {offset n : Nat} (aligned : offset % BLOCK_SIZE = 0)
    (within : offset + n * BLOCK_SIZE ≤ f.size) (committed : Nat → Bool) :
    (∀ s, f.Clean s → (∀ idx, (s.committed idx).isSome = committed idx) → f.AgreesOn offset n s) ↔
      f.Agrees offset n committed := by
  have whole : BLOCK_SIZE ∣ offset := dvd_of_mod_eq_zero aligned
  rw [f.agrees_iff whole within]
  constructor
  · intro agrees
    have ne : (fun _ => 1 : Block) ≠ fun _ => 0 := by
      intro eq
      exact absurd (congrFun eq ⟨0, block_pos⟩) (by decide)
    exact f.meets_of_agreesOn whole within ne (agrees _ (f.clean_uniform _ committed) (isSome_uniform _ committed))
  · rintro ⟨walks, meets, uncommitted⟩ s clean pages
    exact f.agreesOn_of_meets whole within walks meets uncommitted clean pages

end MappedFile

namespace SmallVolume

variable (block : Nat)

/-- Clusters of one block, and a heap that starts at the block after the given one. -/
def blockFs : ExfatFs where
  superBlock :=
    { fs.superBlock with
      sectPerClusterBits := 3
      dataStartSector := 8 * (block + 1)
      clusterBits := by decide
      dataStart := show 2 + 1 * 1 ≤ 8 * (block + 1) by omega }
  fat := fs.fat
  bitmap := fs.bitmap
  covers := fs.covers

theorem sequence_block : ExfatChain.Sequence ⟨5, 1, FAT_CHAIN_NOT_IN_USE⟩ (blockFs block) [5] := by
  refine .of_clusters (fun id mem => ?_) rfl
  cases mem_singleton.mp mem
  exact ⟨show 2 ≤ 5 by decide, show 5 < 10 by decide⟩

theorem covered_block : 4096 ≤ 1 * (blockFs block).superBlock.clusterSize := by
  show 4096 ≤ 1 * 2 ^ (3 + 9)
  decide

/-- A file of one block, in cluster 5. -/
def blockFile : MappedFile where
  inodeType := .file
  size := 4096
  sizeAllocated := 4096
  startChain := ⟨5, 1, FAT_CHAIN_NOT_IN_USE⟩
  fs := blockFs block
  pagesSize := 4096
  ids := [5]
  isFile := rfl
  sequence := sequence_block block
  nodup := List.nodup_cons.mpr ⟨List.not_mem_nil, List.nodup_nil⟩
  width := Nat.one_lt_two_pow (Nat.succ_ne_zero 31)
  covered := covered_block block
  paged := le_refl _

/-- Each block of the device holds its own number. -/
def numbered : Store := ⟨fun b _ => UInt8.ofNat b, fun _ => none, fun _ => none⟩

theorem clean_numbered (f : File) : f.Clean numbered := by
  refine fun idx _ => ⟨fun _ none_ => ?_, fun _ none_ => ?_⟩
  · cases none_
  · cases none_

end SmallVolume

open SmallVolume in
/-- A heap that starts at block 2, two clusters into the volume. -/
theorem direct_agrees_block : (blockFile 1).Clean numbered ∧ (blockFile 1).AgreesOn 0 1 numbered := by
  have agrees : (blockFile 1).Agrees 0 1 fun _ => false :=
    ⟨⟨_, rfl⟩, fun _ _ => by decide, fun small => absurd small (by decide), fun small => absurd small (by decide),
      fun _ => rfl⟩
  have clean := clean_numbered (blockFile 1).toFile
  exact ⟨clean, ((blockFile 1).direct_agrees_iff (by decide) (by decide) _).mpr agrees numbered clean fun _ => rfl⟩

open SmallVolume in
/-- A heap that starts at block 3: the direct read takes the block before that of the page. -/
theorem direct_reads_elsewhere : (blockFile 2).Clean numbered ∧
    ((blockFile 2).readDirectAt numbered 0 (1 * BLOCK_SIZE)).map Prod.snd = .ok [numbered.device 5] ∧
    (blockFile 2).readAt numbered 0 (1 * BLOCK_SIZE) = .ok [numbered.device 6] ∧
    numbered.device 5 ≠ numbered.device 6 := by
  have clean := clean_numbered (blockFile 2).toFile
  have within : 0 + 1 * BLOCK_SIZE ≤ (blockFile 2).size := by decide
  refine ⟨clean, ?_, ?_, fun eq => ?_⟩
  · rfl
  · rw [(blockFile 2).readAt_clean (Nat.dvd_zero _) within clean]
    rfl
  · exact absurd (congrFun eq ⟨0, block_pos⟩) (by decide)

end OmegaOsx.Exfat
