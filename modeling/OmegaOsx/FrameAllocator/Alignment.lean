import OmegaOsx.FrameAllocator.Conservation
import Mathlib.Data.Nat.Prime.Basic
import Mathlib.Tactic.IntervalCases

/-!
# Alignment of allocations

The pools align what they hand out, but a request for at most four frames whose alignment is not
above its size is answered from a cache, without a look at the alignment. A cache of three-frame
segments is filled by cutting twelve frames into four segments, and freed segments of two and four
frames go into their caches wherever they start.

1. `alloc_misaligned`: the second request for three frames aligned to two gets frame nine.
2. `aligned_of_clean`: in a run that frees segments of two and four frames only at multiples of their
   size and never asks for three frames aligned to two, every allocation is aligned.
-/

namespace OmegaOsx.FrameAllocator

open Function CacheArray List

open MlsDisk (bind_ok exists_ok_of_map ite_ok)

variable {layout : Layout}

/-- The order of an alignment in whole pages covers it. -/
theorem Layout.align_dvd (whole : pageSize ∣ layout.align) :
    layout.align ∣ sizeOfOrder (greaterOrderOf layout.align) := by
  have covers := le_sizeOfOrder_greaterOrderOf whole
  obtain ⟨k, eq⟩ := layout.power
  rw [sizeOfOrder_eq] at covers ⊢
  rw [eq] at covers ⊢
  exact pow_dvd_pow 2 ((Nat.pow_le_pow_iff_right one_lt_two).mp covers)

variable {res : Option Paddr}

namespace CacheArray

/-- The alignment that all segments of an array can have, in frames. -/
def alignFrames : CacheArray → Nat
  | cache1 => 1
  | cache2 => 2
  | cache3 => 1
  | cache4 => 4

variable (c : CacheArray)

def segmentAlign : Nat := c.alignFrames * pageSize

def Aligned (cache : List Paddr) : Prop := ∀ addr ∈ cache, c.segmentAlign ∣ addr

theorem segmentAlign_dvd_segmentSize : c.segmentAlign ∣ c.segmentSize := by
  apply mul_dvd_mul_right
  cases c <;> decide

theorem segmentAlign_dvd_sizeOfOrder : c.segmentAlign ∣ sizeOfOrder (greaterOrderOf c.fillLayout.size) := by
  cases c <;> decide +kernel

theorem aligned_fill {c : CacheArray} {allocated : Paddr} (aligned : c.segmentAlign ∣ allocated) :
    c.Aligned (c.fill [] allocated) := by
  intro addr mem
  rw [fill_eq, mem_reverse, mem_map] at mem
  obtain ⟨i, -, rfl⟩ := mem
  exact Nat.dvd_add aligned (c.segmentAlign_dvd_segmentSize.mul_left i)

variable {c : CacheArray} {numCpus seen : Nat} {cache cache' : List Paddr} {p q : Pools}
  {shared : BuddySet maxBuddyOrder}

theorem Aligned.alloc (aligned : c.Aligned cache) (h : c.alloc numCpus seen cache p = .ok (res, cache', q))
    (sound : p.Sound shared) : c.Aligned cache' ∧ ∀ addr, res = some addr → c.segmentAlign ∣ addr := by
  cases cache with
  | cons frame cache =>
    cases h
    obtain ⟨first, rest⟩ := forall_mem_cons.mp aligned
    exact ⟨rest, fun _ same => Option.some.inj same ▸ first⟩
  | nil =>
    obtain ⟨⟨allocated, p1⟩, fresh, h⟩ := bind_ok.mp h
    have whole : pageSize ∣ c.fillLayout.size := c.pageSize_dvd_segmentSize.mul_left _
    obtain ⟨-, -, chunk⟩ := Pools.alloc_run fresh sound whole
    cases allocated with
    | none =>
      cases h
      exact ⟨aligned, nofun⟩
    | some allocated =>
      cases h
      have start : c.segmentAlign ∣ allocated :=
        (c.segmentAlign_dvd_sizeOfOrder.trans (sizeOfOrder_dvd (le_max_left _ _))).trans (chunk allocated rfl)
      exact ⟨aligned_fill start, fun _ same => Option.some.inj same ▸ start⟩

theorem Aligned.dealloc {addr : Paddr} (aligned : c.Aligned cache) (start : c.segmentAlign ∣ addr)
    (h : c.dealloc numCpus seen cache p addr = .ok (cache', q)) : c.Aligned cache' := by
  unfold CacheArray.dealloc at h
  split at h
  · next pushed push =>
    cases h
    unfold pushFront at push
    split at push
    · cases push
    · cases push
      exact forall_mem_cons.mpr ⟨start, aligned⟩
  · obtain ⟨⟨popped, rest⟩, pop, h⟩ := bind_ok.mp h
    obtain ⟨p1, -, h⟩ := bind_ok.mp h
    cases h
    rw [popFronts_run pop] at aligned
    exact (forall_mem_append.mp aligned).2

end CacheArray

def CachesAligned (caches : CacheOfSizes) : Prop := ∀ c : CacheArray, c.Aligned (caches c)

theorem CachesAligned.update {caches : CacheOfSizes} (aligned : CachesAligned caches)
    {c : CacheArray} {cache : List Paddr} (new : c.Aligned cache) :
    CachesAligned (update caches c cache) :=
  (forall_update_iff caches CacheArray.Aligned).mpr ⟨new, fun other _ => aligned other⟩

namespace Op

variable {n : Nat}

/-- No request for three frames aligned to two, and segments of two and four frames are freed at
multiples of their size. -/
def Clean : Op n → Prop
  | .alloc _ _ layout => ¬ (layout.size = 3 * pageSize ∧ layout.align = 2 * pageSize)
  | .dealloc _ _ addr size =>
    (size = 2 * pageSize → size ∣ addr) ∧ (size = 4 * pageSize → size ∣ addr)
  | .addFreeMemory _ _ _ => True

instance : DecidablePred (Clean (n := n))
  | .alloc _ _ layout =>
    inferInstanceAs (Decidable (¬ (layout.size = 3 * pageSize ∧ layout.align = 2 * pageSize)))
  | .dealloc _ _ addr size =>
    inferInstanceAs
      (Decidable ((size = 2 * pageSize → size ∣ addr) ∧ (size = 4 * pageSize → size ∣ addr)))
  | .addFreeMemory _ _ _ => inferInstanceAs (Decidable True)

/-- An alignment of whole pages that is not above the size of the segment. -/
theorem Clean.align_dvd {cpu : Fin n} {seen : Nat} {c : CacheArray} (clean : Clean (.alloc cpu seen layout))
    (size : c.segmentSize = layout.size) (whole : pageSize ∣ layout.align) (fits : layout.align ≤ layout.size) :
    layout.align ∣ c.segmentAlign := by
  obtain ⟨m, align⟩ := whole
  have three : m ≠ 3 := by
    rintro rfl
    obtain ⟨k, power⟩ := layout.power
    have : 3 ∣ 2 ^ k := ⟨pageSize, by rw [← power, align, mul_comm]⟩
    have := Nat.prime_three.dvd_of_dvd_pow this
    omega
  have pos : 0 < m := by
    rcases eq_zero_or_pos m with rfl | pos
    · obtain ⟨k, power⟩ := layout.power
      have := Nat.two_pow_pos k
      omega
    · exact pos
  have few : m ≤ c.nrContFrames := by
    rw [← size, align, mul_comm] at fits
    exact le_of_mul_le_mul_right fits pageSize_pos
  have notTwo : ¬ (c.nrContFrames = 3 ∧ m = 2) := by
    rintro ⟨frames, rfl⟩
    rw [segmentSize, frames] at size
    exact clean ⟨size.symm, align.trans (mul_comm _ _)⟩
  have parts : m ∣ c.alignFrames := by
    have : m ≤ 4 := few.trans (by cases c <;> decide)
    interval_cases m <;> cases c <;> revert few three notTwo <;> decide
  rw [align, mul_comm]
  exact mul_dvd_mul_right parts _

end Op

section

variable {numCpus seen : Nat} {caches caches' : CacheOfSizes} {p q : Pools}
  {shared : BuddySet maxBuddyOrder}

theorem poolsAlloc_aligned (h : poolsAlloc numCpus seen caches p layout = .ok (res, caches', q))
    (sound : p.Sound shared) (whole : pageSize ∣ layout.size) :
    caches' = caches ∧ ∀ addr, res = some addr → pageSize ∣ layout.align → layout.align ∣ addr := by
  obtain ⟨⟨res', p1⟩, alloc, h⟩ := bind_ok.mp h
  cases h
  obtain ⟨-, -, chunk⟩ := Pools.alloc_run alloc sound whole
  refine ⟨rfl, fun addr same wholeAlign => ?_⟩
  exact ((Layout.align_dvd wholeAlign).trans (sizeOfOrder_dvd (le_max_right _ _))).trans (chunk addr same)

variable {n size : Nat} {cpu : Fin n} {addr : Paddr}

theorem CachesAligned.alloc (aligned : CachesAligned caches)
    (h : cacheAlloc numCpus seen caches p layout = .ok (res, caches', q)) (sound : p.Sound shared)
    (whole : pageSize ∣ layout.size) (clean : Op.Clean (.alloc cpu seen layout)) : CachesAligned caches' ∧
      ∀ addr, res = some addr → pageSize ∣ layout.align → layout.align ∣ addr := by
  unfold cacheAlloc at h
  dsimp only at h
  split at h
  · obtain ⟨rfl, start⟩ := poolsAlloc_aligned h sound whole
    exact ⟨aligned, start⟩
  · next fits =>
    split at h
    · next c size =>
      obtain ⟨⟨res', cache, p1⟩, alloc, h⟩ := bind_ok.mp h
      cases h
      obtain ⟨left, start⟩ := (aligned c).alloc alloc sound
      refine ⟨aligned.update left, fun addr same wholeAlign => ?_⟩
      exact (clean.align_dvd (segmentSize_cacheFor whole size) wholeAlign (not_lt.mp fits)).trans (start addr same)
    · obtain ⟨rfl, start⟩ := poolsAlloc_aligned h sound whole
      exact ⟨aligned, start⟩

theorem Op.Clean.segmentAlign_dvd
    {c : CacheArray} (clean : Op.Clean (.dealloc cpu seen addr size)) (page : pageSize ∣ addr)
    (same : c.segmentSize = size) : c.segmentAlign ∣ addr := by
  subst same
  unfold segmentAlign
  cases c with
  | cache1 => exact (Nat.one_mul _).symm ▸ page
  | cache2 => exact clean.1 rfl
  | cache3 => exact (Nat.one_mul _).symm ▸ page
  | cache4 => exact clean.2 rfl

theorem CachesAligned.dealloc (aligned : CachesAligned caches)
    (h : cacheDealloc numCpus seen caches p addr size = .ok (caches', q))
    (page : pageSize ∣ addr) (whole : pageSize ∣ size)
    (clean : Op.Clean (.dealloc cpu seen addr size)) : CachesAligned caches' := by
  unfold cacheDealloc at h
  dsimp only at h
  have viaPools (h : poolsDealloc numCpus seen caches p addr size = .ok (caches', q)) : CachesAligned caches' := by
    obtain ⟨p1, -, h⟩ := bind_ok.mp h
    cases h
    exact aligned
  split at h
  · exact viaPools h
  split at h
  · next c same =>
    obtain ⟨⟨cache, p1⟩, dealloc, h⟩ := bind_ok.mp h
    cases h
    have start := clean.segmentAlign_dvd page (segmentSize_cacheFor whole same)
    exact aligned.update ((aligned c).dealloc start dealloc)
  · exact viaPools h

end

namespace Ledger

variable {n : Nat}

/-- Accounted, with aligned segments in every cache. -/
structure Aligned (s : Ledger n) : Prop extends s.Accounted where
  caches : ∀ cpu, CachesAligned (s.allocator.cpus cpu).caches

theorem aligned_start : (start : Ledger n).Aligned where
  toAccounted := accounted_start
  caches _ _ _ mem := nomatch mem

/-- A step whose call is clean. -/
def CleanStep (s : Ledger n) (op : Op n) (t : Ledger n) : Prop := op.Clean ∧ Step s op t

variable {cpu : Fin n} {s t : Ledger n} {op : Op n}

theorem caches_finish {s : Allocator n} {caches : CacheOfSizes} {p : Pools}
    {counter : BitVec 64} (old : ∀ cpu, CachesAligned (s.cpus cpu).caches)
    (new : CachesAligned caches) : ∀ other, CachesAligned ((s.finish cpu caches p counter).cpus other).caches :=
  (forall_update_iff s.cpus fun _ cpu => CachesAligned cpu.caches).mpr ⟨new, fun other _ => old other⟩

theorem Aligned.alloc {seen : Nat} (aligned : s.Aligned) (whole : pageSize ∣ layout.size)
    (clean : Op.Clean (.alloc cpu seen layout)) (h : s.exec (.alloc cpu seen layout) = .ok (res, t)) :
    (∀ other, CachesAligned (t.allocator.cpus other).caches) ∧
      ∀ addr, res = some addr → pageSize ∣ layout.align → layout.align ∣ addr := by
  obtain ⟨⟨res', allocator⟩, alloc, h⟩ := bind_ok.mp h
  cases h
  obtain ⟨⟨res', caches, p⟩, taken, alloc⟩ := bind_ok.mp alloc
  cases alloc
  obtain ⟨left, start⟩ := (aligned.caches cpu).alloc taken (aligned.sound.pools cpu) whole clean
  exact ⟨caches_finish aligned.caches left, start⟩

theorem Aligned.step (aligned : s.Aligned) (step : CleanStep s op t) : t.Aligned := by
  obtain ⟨clean, called, res, h⟩ := step
  refine ⟨aligned.toAccounted.step ⟨called, res, h⟩, ?_⟩
  cases op with
  | alloc cpu seen layout => exact (aligned.alloc called clean h).1
  | dealloc cpu seen addr size =>
    obtain ⟨allocator, dealloc, h⟩ := bind_ok.mp h
    cases h
    obtain ⟨⟨caches, p⟩, freed, dealloc⟩ := bind_ok.mp dealloc
    cases dealloc
    have left := (aligned.caches cpu).dealloc freed called.1 called.2.1 clean
    exact caches_finish aligned.caches left
  | addFreeMemory cpu addr size =>
    obtain ⟨allocator, add, h⟩ := bind_ok.mp h
    cases h
    obtain ⟨p, -, add⟩ := bind_ok.mp add
    cases add
    exact caches_finish aligned.caches (aligned.caches cpu)

theorem aligned_of_clean {s t : Ledger n} {ops : List (Op n)} {cpu : Fin n} {seen : Nat}
    {layout : Layout} {addr : Paddr} (run : Labelled.Run CleanStep start ops s)
    (clean : Op.Clean (.alloc cpu seen layout)) (whole : pageSize ∣ layout.size)
    (wholeAlign : pageSize ∣ layout.align)
    (returns : s.exec (.alloc cpu seen layout) = .ok (some addr, t)) : layout.align ∣ addr := by
  have keep s op (t : Ledger n) (inv : s.Aligned) (step : CleanStep s op t) : t.Aligned := inv.step step
  exact ((run.invariant keep aligned_start).alloc whole clean returns).2 addr rfl wholeAlign

/-- A clean call by a caller that keeps to its side. -/
def execClean (s : Ledger n) (op : Op n) : Res (Ledger n) :=
  if op.Clean then s.execCalled op else panicWith "not clean"

theorem cleanStep_of_execClean (h : s.execClean op = .ok t) : CleanStep s op t := by
  obtain ⟨clean, h⟩ := ite_ok.mp h
  exact ⟨clean, step_of_execCalled h⟩

/-- Two frames are freed where an allocation of four started, and four frames are asked for. -/
def halves (cpu : Fin n) : List (Op n) :=
  [.addFreeMemory cpu 0 (32 * pageSize), .alloc cpu 0 (.frames 4 2),
    .dealloc cpu 0 (2 * pageSize) (2 * pageSize)]

theorem aligned_of_clean_halves : ∃ (s t : Ledger 1) (addr : Paddr), Labelled.Run CleanStep start (halves 0) s ∧
    s.exec (.alloc 0 0 (.frames 4 2)) = .ok (some addr, t) ∧ 4 * pageSize ∣ addr := by
  obtain ⟨s, returns, last⟩ := exists_ok_of_map (x := (halves 0).foldlM execClean (start : Ledger 1))
    (f := fun s => (s.exec (.alloc 0 0 (.frames 4 2))).toOption.map (·.1))
    (b := some (some (12 * pageSize))) (by decide +kernel)
  obtain ⟨⟨res, t⟩, call, rfl⟩ := exists_ok_of_map last
  have run : Labelled.Run CleanStep start (halves 0) s := .of_foldlM (fun _ _ _ _ => cleanStep_of_execClean) returns
  exact ⟨s, t, _, run, call, aligned_of_clean run (by decide +kernel) (by decide +kernel) (by decide +kernel) call⟩

/-- The segments of three frames that fill the cache start at frames 0, 3, 6 and 9; the first request
gets the first of them and the second the last. -/
theorem alloc_misaligned : ∃ s t addr,
    Labelled.Run Step start [.addFreeMemory 0 0 (16 * pageSize), .alloc 0 0 (.frames 3 1)] (s : Ledger 1) ∧
    (Layout.frames 3 1).align ≤ sizeOfOrder (greaterOrderOf (Layout.frames 3 1).size) ∧
    s.exec (.alloc 0 0 (.frames 3 1)) = .ok (some addr, t) ∧
    ¬ (Layout.frames 3 1).align ∣ addr := by
  obtain ⟨s, returns, last⟩ := exists_ok_of_map
    (x := [Op.addFreeMemory 0 0 (16 * pageSize), .alloc 0 0 (.frames 3 1)].foldlM execCalled (start : Ledger 1))
    (f := fun s => (s.exec (.alloc 0 0 (.frames 3 1))).toOption.map (·.1))
    (b := some (some (9 * pageSize))) (by decide +kernel)
  obtain ⟨⟨res, t⟩, call, rfl⟩ := exists_ok_of_map last
  exact ⟨s, t, _, .of_foldlM (fun _ _ _ _ => step_of_execCalled) returns, by decide +kernel, call,
    by decide +kernel⟩

end Ledger

end OmegaOsx.FrameAllocator
