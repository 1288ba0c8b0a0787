import OmegaOsx.FrameAllocator.Pools
import Mathlib.Data.BitVec
import Mathlib.Tactic.Abel

/-!
# The caches and the allocator

In front of its pool every CPU has four small stacks of segments, of one to four frames. An empty
stack is filled by cutting up one allocation from the pools, and a full one gives most of its
segments back to them.
-/

namespace OmegaOsx.FrameAllocator

open List

open MlsDisk (bind_ok)

/-- The cache arrays of a CPU: `CacheArray<1, 12>`, `CacheArray<2, 6>` and so on. The segments of
an array are a list, the one pushed last in front. -/
inductive CacheArray
  | cache1
  | cache2
  | cache3
  | cache4
  deriving DecidableEq, Repr

instance : Fintype CacheArray where
  elems := {.cache1, .cache2, .cache3, .cache4}
  complete c := by cases c <;> decide

abbrev CacheOfSizes := CacheArray → List Paddr

namespace CacheArray

def nrContFrames : CacheArray → Nat
  | cache1 => 1
  | cache2 => 2
  | cache3 => 3
  | cache4 => 4

def count : CacheArray → Nat
  | cache1 => 12
  | cache2 => 6
  | cache3 => 6
  | cache4 => 6

variable (c : CacheArray)

def segmentSize : Nat := c.nrContFrames * pageSize

def pushFront (cache : List Paddr) (frame : Paddr) : Option (List Paddr) :=
  if cache.length = c.count then none else some (frame :: cache)

def nrToAlloc : Nat := c.count * 2 / 3

/-- The loop that fills the array with all parts of an allocation but the first. What does not fit
would be lost. -/
def fill (cache : List Paddr) (allocated : Paddr) : List Paddr :=
  (List.range' 1 (c.nrToAlloc - 1)).foldl
    (fun cache i => (c.pushFront cache (allocated + i * c.segmentSize)).getD cache) cache

def fillLayout : Layout :=
  ⟨c.nrToAlloc * c.segmentSize, pageSize, 12, pageSize_eq⟩

def alloc (c : CacheArray) (numCpus seen : Nat) (cache : List Paddr) (p : Pools) :
    Res (Option Paddr × List Paddr × Pools) :=
  match cache with
  | frame :: cache => .ok (some frame, cache, p)
  | [] => do
    let (allocated, p) ← p.alloc numCpus seen c.fillLayout
    match allocated with
    | none => pure (none, [], p)
    | some allocated => pure (some allocated, c.fill [] allocated, p)

/-- `pop_front().unwrap()`, the given number of times. -/
def popFronts : Nat → List Paddr → Res (List Paddr × List Paddr)
  | 0, cache => .ok ([], cache)
  | _ + 1, [] => panicWith "called `Option::unwrap()` on a `None` value"
  | n + 1, frame :: cache => do
    let (popped, cache) ← popFronts n cache
    pure (frame :: popped, cache)

def dealloc (c : CacheArray) (numCpus seen : Nat) (cache : List Paddr) (p : Pools) (addr : Paddr) :
    Res (List Paddr × Pools) :=
  match c.pushFront cache addr with
  | some cache => .ok (cache, p)
  | none => do
    let (popped, cache) ← popFronts (c.count * 2 / 3) cache
    let p ← p.dealloc numCpus seen ((addr :: popped).map (·, c.segmentSize))
    pure (cache, p)

end CacheArray

/-- The array for segments of the given number of frames. -/
def cacheFor : Nat → Option CacheArray
  | 1 => some .cache1
  | 2 => some .cache2
  | 3 => some .cache3
  | 4 => some .cache4
  | _ => none

def poolsAlloc (numCpus seen : Nat) (caches : CacheOfSizes) (p : Pools) (layout : Layout) :
    Res (Option Paddr × CacheOfSizes × Pools) := do
  let (res, p) ← p.alloc numCpus seen layout
  pure (res, caches, p)

/-- `cache::alloc`. -/
def cacheAlloc (numCpus seen : Nat) (caches : CacheOfSizes) (p : Pools) (layout : Layout) :
    Res (Option Paddr × CacheOfSizes × Pools) :=
  let nrFrames := layout.size / pageSize
  if layout.size < layout.align then poolsAlloc numCpus seen caches p layout
  else
    match cacheFor nrFrames with
    | some c => do
      let (res, cache, p) ← c.alloc numCpus seen (caches c) p
      pure (res, Function.update caches c cache, p)
    | none => poolsAlloc numCpus seen caches p layout

def poolsDealloc (numCpus seen : Nat) (caches : CacheOfSizes) (p : Pools) (addr : Paddr)
    (size : Nat) : Res (CacheOfSizes × Pools) := do
  let p ← p.dealloc numCpus seen [(addr, size)]
  pure (caches, p)

/-- `cache::dealloc`. -/
def cacheDealloc (numCpus seen : Nat) (caches : CacheOfSizes) (p : Pools) (addr : Paddr)
    (size : Nat) : Res (CacheOfSizes × Pools) :=
  let nrFrames := size / pageSize
  if 4 < nrFrames then poolsDealloc numCpus seen caches p addr size
  else
    match cacheFor nrFrames with
    | some c => do
      let (cache, p) ← c.dealloc numCpus seen (caches c) p addr
      pure (Function.update caches c cache, p)
    | none => poolsDealloc numCpus seen caches p addr size

/-- The part of the allocator that is local to a CPU. `counter` is its share of `TOTAL_FREE_SIZE`, an
`isize` that wraps. -/
structure Cpu where
  caches : CacheOfSizes
  pool : BuddySet maxLocalBuddyOrder
  counter : BitVec 64

/-- The allocator on a machine with `n` CPUs. -/
structure Allocator (n : Nat) where
  cpus : Fin n → Cpu
  globalPool : BuddySet maxBuddyOrder
  globalPoolSize : Nat

namespace Allocator

variable {n : Nat}

def new : Allocator n := ⟨fun _ => ⟨fun _ => [], .newEmpty, 0⟩, .newEmpty, 0⟩

variable (s : Allocator n) (cpu : Fin n)

/-- What a call on the CPU works with. -/
def pools : Pools := ⟨(s.cpus cpu).pool, s.globalPool, false⟩

/-- The state after a call on the CPU, with `update_global_size_if_locked`. -/
def finish (caches : CacheOfSizes) (p : Pools) (counter : BitVec 64) : Allocator n where
  cpus := Function.update s.cpus cpu ⟨caches, p.localPool, counter⟩
  globalPool := p.globalPool
  globalPoolSize := if p.locked then p.globalPool.totalSize else s.globalPoolSize

def alloc (seen : Nat) (layout : Layout) : Res (Option Paddr × Allocator n) := do
  let (res, caches, p) ← cacheAlloc n seen (s.cpus cpu).caches (s.pools cpu) layout
  let counter := (s.cpus cpu).counter
  pure (res, s.finish cpu caches p
    (if res.isSome then counter - BitVec.ofNat 64 layout.size else counter))

def dealloc (seen : Nat) (addr : Paddr) (size : Nat) : Res (Allocator n) := do
  let (caches, p) ← cacheDealloc n seen (s.cpus cpu).caches (s.pools cpu) addr size
  pure (s.finish cpu caches p ((s.cpus cpu).counter + BitVec.ofNat 64 size))

def addFreeMemory (s : Allocator n) (cpu : Fin n) (addr : Paddr) (size : Nat) :
    Res (Allocator n) := do
  let p ← (s.pools cpu).addFreeMemory addr size
  pure (s.finish cpu (s.cpus cpu).caches p ((s.cpus cpu).counter + BitVec.ofNat 64 size))

def loadTotalFreeSize : Nat :=
  let total := ∑ cpu, (s.cpus cpu).counter
  if total.toInt < 0 then 0 else total.toNat

end Allocator

/-! ### What a CPU holds -/

variable {c : CacheArray} {cache : List Paddr} {res : Option Paddr} {shared : BuddySet maxBuddyOrder}

namespace CacheArray

def segmentPages (c : CacheArray) (cache : List Paddr) : Multiset Nat :=
  (cache.map fun addr => pages addr c.segmentSize).sum

theorem pageSize_dvd_segmentSize (c : CacheArray) : pageSize ∣ c.segmentSize := dvd_mul_left _ _

theorem segmentPages_cons (c : CacheArray) (addr : Paddr) (cache : List Paddr) :
    c.segmentPages (addr :: cache) = pages addr c.segmentSize + c.segmentPages cache := by
  unfold segmentPages
  rw [map_cons, sum_cons]

/-- Pushes into an array with room for all of them. -/
theorem foldl_pushFront {frames : List Paddr} (room : cache.length + frames.length ≤ c.count) :
    frames.foldl (fun cache frame => (c.pushFront cache frame).getD cache) cache = frames.reverse ++ cache := by
  induction frames generalizing cache with
  | nil => rfl
  | cons frame frames ih =>
    rw [length_cons] at room
    have push : c.pushFront cache frame = some (frame :: cache) := if_neg (by omega)
    rw [foldl_cons, push, Option.getD_some, ih (by rw [length_cons]; omega), reverse_cons, append_assoc]
    rfl

theorem fill_eq (c : CacheArray) (allocated : Paddr) : c.fill [] allocated =
      ((range' 1 (c.nrToAlloc - 1)).map fun i => allocated + i * c.segmentSize).reverse := by
  unfold fill
  rw [← foldl_map (g := fun cache frame => (c.pushFront cache frame).getD cache), foldl_pushFront, append_nil]
  rw [length_map]
  cases c <;> decide

/-- The first part of an allocation and those that fill the array are all of it. -/
theorem segmentPages_fill (c : CacheArray) (allocated : Paddr) :
    c.segmentPages (allocated :: c.fill [] allocated) = pages allocated (c.nrToAlloc * c.segmentSize) := by
  have parts : range c.nrToAlloc = 0 :: range' 1 (c.nrToAlloc - 1) := by
    cases c <;> rfl
  rw [mul_comm, pages_mul _ c.pageSize_dvd_segmentSize, parts, map_cons, sum_cons,
    mul_zero, add_zero, segmentPages_cons, fill_eq]
  unfold segmentPages
  rw [map_reverse, sum_reverse, map_map]
  simp only [Function.comp_def, mul_comm]

variable {numCpus seen : Nat} {cache' : List Paddr} {p q : Pools}

theorem alloc_run
    (h : c.alloc numCpus seen cache p = .ok (res, cache', q)) (sound : p.Sound shared) : q.Sound shared ∧
      c.segmentPages cache + p.held = c.segmentPages cache' + q.held + grant c.segmentSize res := by
  cases cache with
  | cons frame cache =>
    cases h
    refine ⟨sound, ?_⟩
    rw [segmentPages_cons, add_assoc, add_comm]
    rfl
  | nil =>
    obtain ⟨⟨allocated, p1⟩, fresh, h⟩ := bind_ok.mp h
    have whole : pageSize ∣ c.fillLayout.size := c.pageSize_dvd_segmentSize.mul_left _
    obtain ⟨sound1, eq, -⟩ := Pools.alloc_run fresh sound whole
    cases allocated with
    | none =>
      cases h
      exact ⟨sound1, by rw [eq, ← add_assoc]; rfl⟩
    | some allocated =>
      cases h
      refine ⟨sound1, ?_⟩
      have all : grant c.fillLayout.size (some allocated) =
          pages allocated c.segmentSize + c.segmentPages (c.fill [] allocated) := by
        rw [← segmentPages_cons, segmentPages_fill]
        rfl
      have empty : c.segmentPages [] = 0 := rfl
      rw [eq, all, empty, zero_add, add_comm (pages _ _), ← add_assoc, add_comm q.held]
      rfl

theorem popFronts_run {k : Nat} {popped rest : List Paddr} (h : popFronts k cache = .ok (popped, rest)) :
    cache = popped ++ rest := by
  induction k generalizing cache popped with
  | zero =>
    cases h
    rfl
  | succ k ih =>
    cases cache with
    | nil => cases h
    | cons frame cache =>
      obtain ⟨⟨popped', rest'⟩, pop, h⟩ := bind_ok.mp h
      cases h
      rw [ih pop, cons_append]

theorem dealloc_run {addr : Paddr}
    (h : c.dealloc numCpus seen cache p addr = .ok (cache', q)) (sound : p.Sound shared) : q.Sound shared ∧
      c.segmentPages cache' + q.held = c.segmentPages cache + p.held + pages addr c.segmentSize := by
  unfold dealloc at h
  split at h
  · next pushed push =>
    cases h
    unfold pushFront at push
    split at push
    · cases push
    · cases push
      refine ⟨sound, ?_⟩
      rw [segmentPages_cons, add_assoc, add_comm]
  · obtain ⟨⟨popped, rest⟩, pop, h⟩ := bind_ok.mp h
    obtain ⟨p1, freed, h⟩ := bind_ok.mp h
    cases h
    obtain ⟨sound1, eq⟩ := Pools.dealloc_run freed sound
    refine ⟨sound1, ?_⟩
    have given : (((addr :: popped).map (·, c.segmentSize)).map fun segment =>
        pages segment.1 segment.2).sum = pages addr c.segmentSize + c.segmentPages popped := by
      rw [map_map]
      rfl
    have split : c.segmentPages cache = c.segmentPages popped + c.segmentPages cache' := by
      rw [popFronts_run pop]
      unfold segmentPages
      rw [map_append, sum_append]
    rw [eq, given, split]
    abel

end CacheArray

def cachesPages (caches : CacheOfSizes) : Multiset Nat :=
  Holdings.total CacheArray.segmentPages caches

theorem cacheFor_eq {nrFrames : Nat} (h : cacheFor nrFrames = some c) : c.nrContFrames = nrFrames := by
  unfold cacheFor at h
  split at h <;> cases h <;> rfl

theorem segmentSize_cacheFor {size : Nat} (whole : pageSize ∣ size) (h : cacheFor (size / pageSize) = some c) :
    c.segmentSize = size := by
  rw [CacheArray.segmentSize, cacheFor_eq h, Nat.div_mul_cancel whole]

section

variable {numCpus seen : Nat} {caches caches' : CacheOfSizes} {p q : Pools}
  {layout : Layout} {addr : Paddr} {size : Nat}

theorem poolsAlloc_run (h : poolsAlloc numCpus seen caches p layout = .ok (res, caches', q))
    (sound : p.Sound shared) (whole : pageSize ∣ layout.size) :
    q.Sound shared ∧ cachesPages caches + p.held = cachesPages caches' + q.held + grant layout.size res := by
  obtain ⟨⟨res', p1⟩, alloc, h⟩ := bind_ok.mp h
  cases h
  obtain ⟨sound1, eq, -⟩ := Pools.alloc_run alloc sound whole
  exact ⟨sound1, by rw [eq, add_assoc]⟩

theorem cacheAlloc_run (h : cacheAlloc numCpus seen caches p layout = .ok (res, caches', q))
    (sound : p.Sound shared) (whole : pageSize ∣ layout.size) :
    q.Sound shared ∧ cachesPages caches + p.held = cachesPages caches' + q.held + grant layout.size res := by
  unfold cacheAlloc at h
  dsimp only at h
  split at h
  · exact poolsAlloc_run h sound whole
  split at h
  · next c size =>
    obtain ⟨⟨res', cache, p1⟩, alloc, h⟩ := bind_ok.mp h
    cases h
    obtain ⟨sound1, eq⟩ := CacheArray.alloc_run alloc sound
    rw [segmentSize_cacheFor whole size, add_assoc] at eq
    exact ⟨sound1, by rw [cachesPages, Holdings.total_update_of_eq _ eq, add_assoc]; rfl⟩
  · exact poolsAlloc_run h sound whole

theorem poolsDealloc_run
    (h : poolsDealloc numCpus seen caches p addr size = .ok (caches', q)) (sound : p.Sound shared) :
    q.Sound shared ∧ cachesPages caches' + q.held = cachesPages caches + p.held + pages addr size := by
  obtain ⟨p1, freed, h⟩ := bind_ok.mp h
  cases h
  obtain ⟨sound1, eq⟩ := Pools.dealloc_run freed sound
  rw [map_singleton, sum_singleton] at eq
  exact ⟨sound1, by rw [eq, add_assoc]⟩

theorem cacheDealloc_run (h : cacheDealloc numCpus seen caches p addr size = .ok (caches', q)) (sound : p.Sound shared)
    (whole : pageSize ∣ size) :
    q.Sound shared ∧ cachesPages caches' + q.held = cachesPages caches + p.held + pages addr size := by
  unfold cacheDealloc at h
  dsimp only at h
  split at h
  · exact poolsDealloc_run h sound
  split at h
  · next c same =>
    obtain ⟨⟨cache, p1⟩, dealloc, h⟩ := bind_ok.mp h
    cases h
    obtain ⟨sound1, eq⟩ := CacheArray.dealloc_run dealloc sound
    rw [segmentSize_cacheFor whole same, add_assoc] at eq
    exact ⟨sound1, by rw [add_assoc]; exact (Holdings.total_update_of_eq _ eq.symm).symm⟩
  · exact poolsDealloc_run h sound

end

end OmegaOsx.FrameAllocator
