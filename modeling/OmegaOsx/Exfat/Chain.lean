import Mathlib.Data.List.Chain
import OmegaOsx.Exfat.Bitmap

/-!
# Growing and shrinking a chain of clusters

`extend_clusters` and `remove_clusters_from_tail`, with their loops over the FAT.

A chain is contiguous, or its clusters are linked in the FAT; `Sequence` says which clusters it has in
either case: where `walk` leads (`Sequence.walk`, `Sequence.of_clusters`).
-/

namespace OmegaOsx.Exfat

open ExfatFs List ExfatChain FatValue Nat Function Except

open MlsDisk (bind_ok guard_ok)

/-! ### The calls -/

namespace ExfatChain

/-- The loop of `alloc_cluster_fat`, from its `i`-th round on; `start` is the first cluster it took. -/
def allocLoop : Nat → Nat → ExfatFs → Nat → Nat → Nat → Res (ExfatFs × Nat × Nat)
  | 0, _, fs, start, prev, _ => .ok (fs, start, prev)
  | rounds + 1, i, fs, start, prev, cur => do
    let cur ← fs.findNextUnusedCluster cur
    let fs ← fs.setUsed cur
    if i = 0 then allocLoop rounds (i + 1) fs cur cur cur
    else allocLoop rounds (i + 1) (fs.writeNextFat prev (.next cur)) start cur cur

/-- The first allocated cluster. -/
def allocClusterFat (fs : ExfatFs) (numToBeAllocated : Nat) : Res (ExfatFs × Nat) := do
  let (fs, start, prev) ← allocLoop numToBeAllocated 0 fs 0 0 EXFAT_FIRST_CLUSTER
  pure (fs.writeNextFat prev .endOfChain, start)

variable (chain : ExfatChain)

def allocClusterFromEmpty (fs : ExfatFs) (numToBeAllocated : Nat) : Res (ExfatFs × ExfatChain × Nat) :=
  match fs.findNextUnusedClusterRange EXFAT_FIRST_CLUSTER numToBeAllocated with
  | .ok start => do
    let fs ← fs.setRangeUsed start numToBeAllocated
    pure (fs, { chain with current := start, flags := FAT_CHAIN_NOT_IN_USE }, start)
  | .error (.panic msg) => panicWith msg
  | .error (.errno _ _) => do
    let (fs, start) ← allocClusterFat fs numToBeAllocated
    pure (fs, { chain with current := start, flags := ALLOC_POSSIBLE }, start)

/-- Links the clusters of a contiguous chain in the FAT. -/
def breakChain (fs : ExfatFs) (start numClusters : Nat) : ExfatFs :=
  let fs := (List.range (numClusters - 1)).foldl
    (fun fs i => fs.writeNextFat (start + i) (.next (start + i + 1))) fs
  fs.writeNextFat (start + numClusters - 1) .endOfChain

/-- The end of `extend_clusters`: allocates through the FAT and links to the tail. -/
def extendFat (fs : ExfatFs) (numToBeAllocated : Nat) : Res (ExfatFs × ExfatChain × Nat) := do
  let (fs, start) ← allocClusterFat fs numToBeAllocated
  let tail ← chain.walk fs (chain.numClusters - 1)
  let numClusters ← add32 chain.numClusters numToBeAllocated
  pure (fs.writeNextFat tail.current (.next start), { chain with numClusters }, start)

def extendClusters (fs : ExfatFs) (numToBeAllocated : Nat) : Res (ExfatFs × ExfatChain × Nat) := do
  if fs.numFreeClusters < numToBeAllocated then fail .enospc ""
  else if chain.numClusters = 0 then
    let (fs, chain, allocated) ← chain.allocClusterFromEmpty fs numToBeAllocated
    pure (fs, { chain with numClusters := chain.numClusters + numToBeAllocated }, allocated)
  else if !chain.fatInUse then
    let currentEnd ← add32 chain.current chain.numClusters
    let _ ← add32 currentEnd numToBeAllocated
    if ← fs.isClusterRangeUnused currentEnd numToBeAllocated then
      let fs ← fs.setRangeUsed currentEnd numToBeAllocated
      pure (fs, { chain with numClusters := chain.numClusters + numToBeAllocated }, chain.current)
    else
      extendFat { chain with flags := ALLOC_POSSIBLE } (breakChain fs chain.current chain.numClusters)
        numToBeAllocated
  else chain.extendFat fs numToBeAllocated

/-- `remove_cluster_fat`: the last cluster, and no other, must end the chain. -/
def removeClusterFat : Nat → ExfatFs → Nat → Res ExfatFs
  | 0, fs, _ => .ok fs
  | dropNum + 1, fs, cur => do
    let fs ← fs.setUnused cur
    match ← fs.readNextFat cur with
    | .next data => if dropNum = 0 then fail .einval "invalid fat entry" else removeClusterFat dropNum fs data
    | .endOfChain =>
      if dropNum ≠ 0 then fail .einval "invalid fat entry" else removeClusterFat dropNum fs cur
    | _ => fail .einval "invalid fat entry"

/-- The part of `remove_clusters_from_tail` for linked chains. -/
def removeFat (fs : ExfatFs) (truncStart dropNum : Nat) : Res ExfatFs := do
  let fs ← removeClusterFat dropNum fs truncStart
  if dropNum ≠ chain.numClusters then
    let tail ← chain.walk fs (chain.numClusters - dropNum - 1)
    pure (fs.writeNextFat tail.current .endOfChain)
  else pure fs

/-- Gives the clusters from `truncStart` on back. -/
def freeClusters (fs : ExfatFs) (truncStart dropNum : Nat) : Res ExfatFs :=
  if !chain.fatInUse then fs.setRangeUnused truncStart dropNum else chain.removeFat fs truncStart dropNum

def removeClustersFromTail (fs : ExfatFs) (dropNum : Nat) : Res (ExfatFs × ExfatChain) :=
  if chain.numClusters < dropNum then fail .einval "invalid free_num"
  else do
    let trunc ← chain.walk fs (chain.numClusters - dropNum)
    let fs ← chain.freeClusters fs trunc.current dropNum
    pure (fs, { chain with numClusters := chain.numClusters - dropNum })

end ExfatChain

/-! ### The clusters of a chain -/

/-- Each cluster is linked to the next in the FAT. -/
def ExfatFs.Links (fs : ExfatFs) (ids : List Nat) : Prop :=
  ids.IsChain fun a b => FatValue.ofRaw (fs.fat a) = .next b

/-- `ids` are the clusters of a chain. -/
structure ExfatChain.Sequence (chain : ExfatChain) (fs : ExfatFs) (ids : List Nat) : Prop where
  length : ids.length = chain.numClusters
  inHeap : ∀ id ∈ ids, fs.InHeap id
  contiguous : chain.fatInUse = false → ids = List.range' chain.current chain.numClusters
  linked : chain.fatInUse = true → (∀ id ∈ ids.head?, id = chain.current) ∧ fs.Links ids

variable {id : Nat} {fs : ExfatFs}

theorem readNextFat_of_inHeap (inHeap : fs.InHeap id) : fs.readNextFat id = .ok (.ofRaw (fs.fat id)) := by
  have valid : fs.superBlock.isValidCluster id = true := by
    simp only [ExfatSuperBlock.isValidCluster, Bool.and_eq_true, decide_eq_true_eq]
    exact ⟨inHeap.1, inHeap.2.le⟩
  rw [readNextFat, if_neg (by rw [valid]; decide)]

variable {ids : List Nat}

theorem walkFat_of_links (inHeap : ∀ a ∈ id :: ids, fs.InHeap a) (links : fs.Links (id :: ids)) {steps : Nat}
    (lt : steps < (id :: ids).length) : walkFat fs steps id = .ok (id :: ids)[steps] := by
  induction steps generalizing id ids with
  | zero => rfl
  | succ steps ih =>
    cases ids with
    | nil => exact absurd lt (by simp)
    | cons next ids =>
      obtain ⟨link, rest⟩ := isChain_cons_cons.mp links
      rw [walkFat, readNextFat_of_inHeap (inHeap id mem_cons_self), link]
      exact ih (fun a mem => inHeap a (mem_cons_of_mem _ mem)) rest (lt_of_succ_lt_succ lt)

theorem walkFat_succ (fs : ExfatFs) (steps id : Nat) :
    walkFat fs (steps + 1) id = walkFat fs steps id >>= walkFat fs 1 := by
  induction steps generalizing id with
  | zero => rfl
  | succ steps ih =>
    rw [walkFat, walkFat, bind_assoc]
    refine bind_congr fun value => ?_
    cases value with
    | next nextFat => exact ih nextFat
    | _ => rfl

variable {a b cur start : Nat}

theorem walkFat_one_ok (h : walkFat fs 1 a = .ok b) : ofRaw (fs.fat a) = .next b := by
  obtain ⟨value, read, h⟩ := bind_ok.mp h
  unfold readNextFat at read
  split at read
  · cases read
  · cases value with
    | next nextFat =>
      cases h
      exact ok.inj read
    | _ => cases h

theorem mapM_ok_iff {α β : Type} {f : α → Res β} {as : List α} {bs : List β} :
    as.mapM f = .ok bs ↔ List.Forall₂ (fun a b => f a = .ok b) as bs := by
  induction as generalizing bs with
  | nil =>
    rw [forall₂_nil_left_iff]
    exact ⟨fun h => (ok.inj h).symm, fun h => h ▸ rfl⟩
  | cons a as ih =>
    rw [mapM_cons, forall₂_cons_left_iff]
    constructor
    · intro h
      obtain ⟨b, first, h⟩ := bind_ok.mp h
      obtain ⟨bs', rest, h⟩ := bind_ok.mp h
      cases h
      exact ⟨b, bs', first, ih.mp rest, rfl⟩
    · rintro ⟨b, bs', first, rest, rfl⟩
      rw [first, ih.mpr rest]
      rfl

namespace ExfatChain.Sequence

variable {chain : ExfatChain}

theorem walk (h : chain.Sequence fs ids) {steps : Nat} (lt : steps < ids.length) :
    chain.walk fs steps = .ok ⟨ids[steps], chain.numClusters - steps, chain.flags⟩ := by
  have le : ¬ chain.numClusters < steps := by
    have := h.length
    omega
  have cluster : chain.walkCluster fs steps = .ok ids[steps] := by
    unfold walkCluster
    cases inUse : chain.fatInUse with
    | false =>
      have eq := h.contiguous inUse
      have at_ : ids[steps] = chain.current + steps := by simp [eq]
      have bound := (h.inHeap _ (getElem_mem lt)).2
      have width := fs.superBlock.width
      exact add32_ok.mpr ⟨by omega, at_⟩
    | true =>
      obtain ⟨head, links⟩ := h.linked inUse
      cases ids with
      | nil => exact absurd lt (not_lt_zero _)
      | cons id ids =>
        obtain rfl := head id rfl
        exact walkFat_of_links h.inHeap links lt
  rw [ExfatChain.walk, if_neg le, cluster]
  rfl

/-- The clusters a walk leads to, as long as they are in the heap. -/
theorem of_clusters (inHeap : ∀ id ∈ ids, fs.InHeap id) (walked : chain.clusters fs = .ok ids) :
    chain.Sequence fs ids := by
  obtain ⟨length, each⟩ := forall₂_iff_get.mp (mapM_ok_iff.mp walked)
  rw [length_range] at length
  have cluster : ∀ i (lt : i < ids.length), chain.walkCluster fs i = .ok ids[i] := by
    intro i lt
    have step := each i (by rw [length_range, length]; exact lt) lt
    rw [get_eq_getElem, getElem_range] at step
    have le : ¬ chain.numClusters < i := by omega
    rw [ExfatChain.walk, if_neg le] at step
    obtain ⟨result, reached, current⟩ := bind_ok.mp step
    obtain ⟨id, found, eq⟩ := bind_ok.mp reached
    cases eq
    cases current
    exact found
  unfold walkCluster at cluster
  refine ⟨length.symm, inHeap, fun inUse => ?_, fun inUse => ⟨?_, ?_⟩⟩
  · refine ext_getElem (by simp [length]) fun i lt _ => ?_
    have at_ := cluster i lt
    rw [inUse] at at_
    rw [(add32_ok.mp at_).2, getElem_range', one_mul]
  · intro id head
    cases ids with
    | nil => cases head
    | cons first rest =>
      cases head
      have at_ := cluster 0 (succ_pos _)
      rw [inUse] at at_
      exact (ok.inj at_).symm
  · refine isChain_iff_getElem.mpr fun i lt => ?_
    have at_ := cluster i (by omega)
    have next := cluster (i + 1) lt
    rw [inUse] at at_ next
    change walkFat fs i chain.current = _ at at_
    rw [walkFat_succ, at_] at next
    exact walkFat_one_ok next

end ExfatChain.Sequence

end OmegaOsx.Exfat

namespace OmegaOsx.Exfat.SmallVolume

open ExfatFs ExfatChain

/-- Eight clusters, the first for the bitmap. -/
def fs : ExfatFs where
  superBlock := ⟨10, 9, 0, 24, 2, 1, 1, by decide, by decide, .inl rfl, by decide, by decide, by decide, by decide⟩
  fat := fun cluster => if cluster = 2 ∨ cluster = 5 then EXFAT_EOF_CLUSTER else 0
  bitmap :=
    { chain := ⟨2, 1, ALLOC_POSSIBLE⟩
      bitvec := [true, true, true, true, false, false, false, false]
      numFreeCluster := 4 }
  covers := by decide

end OmegaOsx.Exfat.SmallVolume
