import OmegaOsx.FrameAllocator.Cache
import OmegaOsx.Lib.Run
import Mathlib.Data.Fintype.BigOperators

/-!
# Conservation of frames

A run is a sequence of calls, each on some CPU. A call works on what is local to its CPU and, from
the moment it takes the lock of the global pool to its end, on the global pool; so calls on several
CPUs have the effect of the calls one after another, but for the value of `GLOBAL_POOL_SIZE` that a
call without the lock reads. That value is any.

Beside the allocator a `Ledger` keeps the pages that are allocated and the pages that were added.

1. `Accounted.step`: one call moves pages between the allocator and its callers.
2. `conserved_of_run`: every page added is held in one place, and the recorded sizes say how many there are.
-/

namespace OmegaOsx.FrameAllocator

open Function Allocator Finset Holdings

open MlsDisk (bind_ok exists_ok_of_map ite_ok)

namespace Allocator

variable {n : Nat}

/-- The pages local to a CPU. -/
def cpuPages (_ : Fin n) (cpu : Cpu) : Multiset Nat := cachesPages cpu.caches + cpu.pool.held

/-- The free pages. -/
def held (s : Allocator n) : Multiset Nat := Holdings.total cpuPages s.cpus + s.globalPool.held

/-- The value of `TOTAL_FREE_SIZE`. -/
def counter (s : Allocator n) : BitVec 64 := ∑ cpu, (s.cpus cpu).counter

structure Sound (s : Allocator n) : Prop where
  pool : ∀ cpu, (s.cpus cpu).pool.Sound
  globalPool : s.globalPool.Sound
  globalPoolSize : s.globalPoolSize = s.globalPool.totalSize

theorem held_new : (new : Allocator n).held = 0 := by
  have cpu : cpuPages = fun (_ : Fin n) cpu => cachesPages cpu.caches + cpu.pool.held := rfl
  have caches : cachesPages (fun _ => []) = 0 := by
    unfold cachesPages total
    exact sum_eq_zero fun _ _ => rfl
  unfold held total
  simp only [new, cpu, caches, BuddySet.held_newEmpty, sum_const_zero, add_zero]

theorem sound_new : (new : Allocator n).Sound where
  pool _ := BuddySet.sound_newEmpty
  globalPool := BuddySet.sound_newEmpty
  globalPoolSize := rfl

theorem Sound.pools {s : Allocator n} (sound : s.Sound) (cpu : Fin n) :
    (s.pools cpu).Sound s.globalPool := ⟨sound.pool cpu, sound.globalPool, fun _ => rfl⟩

variable {s : Allocator n} {cpu : Fin n} {caches : CacheOfSizes} {p : Pools} {counter : BitVec 64}

theorem Sound.finish (sound : s.Sound) (pools : p.Sound s.globalPool) : (s.finish cpu caches p counter).Sound where
  pool := (forall_update_iff s.cpus fun _ cpu => cpu.pool.Sound).mpr
    ⟨pools.localPool, fun other _ => sound.pool other⟩
  globalPool := pools.globalPool
  globalPoolSize := by
    unfold Allocator.finish
    cases locked : p.locked with
    | true => rfl
    | false =>
      simp only [Bool.false_eq_true, if_false]
      rw [sound.globalPoolSize, pools.unlocked locked]

theorem held_finish (counter : BitVec 64) {a b : Multiset Nat}
    (h : cachesPages (s.cpus cpu).caches + (s.pools cpu).held + a = cachesPages caches + p.held + b) :
    s.held + a = (s.finish cpu caches p counter).held + b := by
  have moved : cpuPages cpu (s.cpus cpu) + (s.globalPool.held + a) =
      cpuPages cpu ⟨caches, p.localPool, counter⟩ + (p.globalPool.held + b) := by
    simp only [Pools.held, pools, ← add_assoc] at h
    simp only [cpuPages, ← add_assoc, h]
  have total := total_update_of_eq cpuPages moved
  rw [← add_assoc, ← add_assoc] at total
  exact total

theorem counter_finish : (s.finish cpu caches p counter).counter = s.counter + (counter - (s.cpus cpu).counter) := by
  have rest : ∑ j ∈ univ.erase cpu, ((s.finish cpu caches p counter).cpus j).counter =
      ∑ j ∈ univ.erase cpu, (s.cpus j).counter :=
    sum_congr rfl fun j mem => by
      simp only [finish, update_of_ne (ne_of_mem_erase mem)]
  unfold Allocator.counter
  rw [← add_sum_erase _ _ (mem_univ cpu), rest, ← add_sum_erase univ (fun j => (s.cpus j).counter) (mem_univ cpu)]
  simp only [finish, update_self]
  abel

end Allocator

/-! ### Runs -/

/-- The allocator, the pages its callers have and the pages it was ever given. -/
structure Ledger (n : Nat) where
  allocator : Allocator n
  allocated : Multiset Nat
  added : Multiset Nat

inductive Op (n : Nat)
  | alloc (cpu : Fin n) (seen : Nat) (layout : Layout)
  | dealloc (cpu : Fin n) (seen : Nat) (addr : Paddr) (size : Nat)
  | addFreeMemory (cpu : Fin n) (addr : Paddr) (size : Nat)

variable {addr : Paddr} {res : Option Paddr}

namespace Ledger

variable {n : Nat}

def start : Ledger n := ⟨.new, 0, 0⟩

variable (s : Ledger n)

def exec : Op n → Res (Option Paddr × Ledger n)
  | .alloc cpu seen layout => do
    let (res, allocator) ← s.allocator.alloc cpu seen layout
    pure (res, { s with allocator, allocated := s.allocated + grant layout.size res })
  | .dealloc cpu seen addr size => do
    let allocator ← s.allocator.dealloc cpu seen addr size
    pure (none, { s with allocator, allocated := s.allocated - pages addr size })
  | .addFreeMemory cpu addr size => do
    let allocator ← s.allocator.addFreeMemory cpu addr size
    pure (none, { s with allocator, added := s.added + pages addr size })

/-- What the callers of a `GlobalFrameAllocator` guarantee. -/
def Called : Op n → Prop
  | .alloc _ _ layout => pageSize ∣ layout.size
  | .dealloc _ _ addr size => pageSize ∣ addr ∧ pageSize ∣ size ∧ pages addr size ≤ s.allocated
  | .addFreeMemory _ addr size => Disjoint (pages addr size) s.added

instance (s : Ledger n) : DecidablePred s.Called
  | .alloc _ _ layout => inferInstanceAs (Decidable (pageSize ∣ layout.size))
  | .dealloc _ _ addr size =>
    inferInstanceAs (Decidable (pageSize ∣ addr ∧ pageSize ∣ size ∧ pages addr size ≤ s.allocated))
  | .addFreeMemory _ addr size =>
    decidable_of_iff (pages addr size ∩ s.added = 0) Multiset.inter_eq_zero_iff_disjoint

/-- A call that returns. -/
def Step (op : Op n) (t : Ledger n) : Prop :=
  s.Called op ∧ ∃ res, s.exec op = .ok (res, t)

/-- The books are right: what is free and what is allocated are the pages added, each once. -/
structure Accounted (s : Ledger n) : Prop where
  sound : s.allocator.Sound
  sum : s.allocator.held + s.allocated = s.added
  nodup : s.added.Nodup
  counter : s.allocator.counter = BitVec.ofNat 64 (s.allocator.held.card * pageSize)

theorem accounted_start : (start : Ledger n).Accounted where
  sound := sound_new
  sum := by rw [start, held_new]; rfl
  nodup := Multiset.nodup_zero
  counter := by
    rw [start, held_new, Multiset.card_zero, zero_mul]
    exact sum_eq_zero fun _ _ => rfl

variable {size : Nat} {cpu : Fin n}

theorem card_pages_mul (whole : pageSize ∣ size) : (pages addr size).card * pageSize = size := by
  rw [card_pages, Nat.div_mul_cancel whole]

/-- The counter follows the free pages up by `size` bytes. -/
theorem ofNat_card_add {before after : Multiset Nat} (whole : pageSize ∣ size)
    (h : after = before + pages addr size) : BitVec.ofNat 64 (after.card * pageSize) =
      BitVec.ofNat 64 (before.card * pageSize) + BitVec.ofNat 64 size := by
  rw [h, Multiset.card_add, add_mul, card_pages_mul whole, BitVec.ofNat_add]

section

variable {s : Ledger n} (accounted : s.Accounted)
include accounted

variable {t : Ledger n} {seen : Nat}

theorem Accounted.alloc {layout : Layout}
    (whole : pageSize ∣ layout.size) (h : s.exec (.alloc cpu seen layout) = .ok (res, t)) : t.Accounted := by
  obtain ⟨⟨res', allocator⟩, alloc, h⟩ := bind_ok.mp h
  cases h
  obtain ⟨⟨res', caches, p⟩, taken, alloc⟩ := bind_ok.mp alloc
  cases alloc
  obtain ⟨pools, moved⟩ := cacheAlloc_run taken (accounted.sound.pools cpu) whole
  have held := held_finish
    (if res.isSome then (s.allocator.cpus cpu).counter - BitVec.ofNat 64 layout.size
      else (s.allocator.cpus cpu).counter) ((add_zero _).trans moved)
  rw [add_zero] at held
  refine ⟨accounted.sound.finish pools, ?_, accounted.nodup, ?_⟩
  · rw [← accounted.sum, held, add_assoc, add_comm (grant _ _)]
  rw [counter_finish, accounted.counter]
  cases res with
  | none =>
    rw [held]
    simp [grant]
  | some addr =>
    rw [ofNat_card_add whole held, Option.isSome_some, if_pos rfl]
    abel

theorem Accounted.dealloc (whole : pageSize ∣ size) (owned : pages addr size ≤ s.allocated)
    (h : s.exec (.dealloc cpu seen addr size) = .ok (res, t)) : t.Accounted := by
  obtain ⟨allocator, dealloc, h⟩ := bind_ok.mp h
  cases h
  obtain ⟨⟨caches, p⟩, freed, dealloc⟩ := bind_ok.mp dealloc
  cases dealloc
  obtain ⟨pools, moved⟩ := cacheDealloc_run freed (accounted.sound.pools cpu) whole
  have held := held_finish ((s.allocator.cpus cpu).counter + BitVec.ofNat 64 size) (moved.symm.trans (add_zero _).symm)
  rw [add_zero] at held
  refine ⟨accounted.sound.finish pools, ?_, accounted.nodup, ?_⟩
  · rw [← held, add_assoc, add_tsub_cancel_of_le owned, accounted.sum]
  · rw [counter_finish, accounted.counter, ofNat_card_add whole held.symm]
    abel

theorem Accounted.addFreeMemory
    (new : Disjoint (pages addr size) s.added) (h : s.exec (.addFreeMemory cpu addr size) = .ok (res, t)) :
    t.Accounted := by
  obtain ⟨allocator, add, h⟩ := bind_ok.mp h
  cases h
  obtain ⟨p, added, add⟩ := bind_ok.mp add
  cases add
  obtain ⟨whole, pools, moved⟩ := Pools.addFreeMemory_run added (accounted.sound.pools cpu)
  have moved' : cachesPages (s.allocator.cpus cpu).caches + (s.allocator.pools cpu).held +
      pages addr size = cachesPages (s.allocator.cpus cpu).caches + p.held + 0 := by
    rw [moved, add_zero, add_assoc]
  have held := held_finish ((s.allocator.cpus cpu).counter + BitVec.ofNat 64 size) moved'
  rw [add_zero] at held
  refine ⟨accounted.sound.finish pools, ?_, ?_, ?_⟩
  · rw [← held, add_right_comm, accounted.sum]
  · exact Multiset.nodup_add.mpr ⟨accounted.nodup, pages_nodup addr size, new.symm⟩
  · rw [counter_finish, accounted.counter, ofNat_card_add whole held.symm]
    abel

theorem Accounted.step {op : Op n} (step : Step s op t) : t.Accounted := by
  obtain ⟨called, res, h⟩ := step
  cases op with
  | alloc cpu seen layout => exact accounted.alloc called h
  | dealloc cpu seen addr size => exact accounted.dealloc called.2.1 called.2.2 h
  | addFreeMemory cpu addr size => exact accounted.addFreeMemory called h

/-! ### Holders -/

end

/-- The places a page can be in. -/
inductive Holder (n : Nat)
  | caches (cpu : Fin n)
  | pool (cpu : Fin n)
  | globalPool
  | allocated
  deriving DecidableEq

/-- The holders as a sum of finite types. -/
def Holder.equiv : Holder n ≃ (Fin n ⊕ Fin n) ⊕ Unit ⊕ Unit where
  toFun
    | .caches cpu => .inl (.inl cpu)
    | .pool cpu => .inl (.inr cpu)
    | .globalPool => .inr (.inl ())
    | .allocated => .inr (.inr ())
  invFun
    | .inl (.inl cpu) => .caches cpu
    | .inl (.inr cpu) => .pool cpu
    | .inr (.inl ()) => .globalPool
    | .inr (.inr ()) => .allocated
  left_inv h := by cases h <;> rfl
  right_inv x := by rcases x with (_ | _) | (_ | _) <;> rfl

instance : Fintype (Holder n) := Fintype.ofEquiv _ Holder.equiv.symm

def pagesOf : Holder n → Multiset Nat
  | .caches cpu => cachesPages (s.allocator.cpus cpu).caches
  | .pool cpu => (s.allocator.cpus cpu).pool.held
  | .globalPool => s.allocator.globalPool.held
  | .allocated => s.allocated

theorem total_pagesOf : total (fun _ held => held) s.pagesOf = s.allocator.held + s.allocated := by
  have cpus : total cpuPages s.allocator.cpus =
      ∑ cpu, s.pagesOf (.caches cpu) + ∑ cpu, s.pagesOf (.pool cpu) := sum_add_distrib
  have sum : total (fun _ held => held) s.pagesOf =
      ∑ x, s.pagesOf (Holder.equiv.symm x) := (Equiv.sum_comp Holder.equiv.symm s.pagesOf).symm
  rw [sum, held, cpus, add_assoc]
  simp only [Fintype.sum_sum_type, univ_unique, sum_singleton]
  rfl

/-- Every page added is in one place, and the sizes on record are those of the pages there. -/
structure Conserved (s : Ledger n) : Prop where
  /-- No place holds a page twice, no two places share a page. -/
  once : ∀ holder, (s.pagesOf holder).Nodup
  disjoint : ∀ holder other, holder ≠ other → Disjoint (s.pagesOf holder) (s.pagesOf other)
  union : ∀ page, page ∈ s.added ↔ ∃ holder, page ∈ s.pagesOf holder
  localSize : ∀ cpu, (s.allocator.cpus cpu).pool.totalSize = (s.pagesOf (.pool cpu)).card * pageSize
  globalSize : s.allocator.globalPool.totalSize = (s.pagesOf .globalPool).card * pageSize
  globalPoolSize : s.allocator.globalPoolSize = (s.pagesOf .globalPool).card * pageSize
  /-- The counter is right as long as an `isize` can say how much is free. -/
  freeSize : s.allocator.held.card * pageSize < 2 ^ 63 →
    s.allocator.loadTotalFreeSize = s.allocator.held.card * pageSize

theorem Accounted.conserved {s : Ledger n} (accounted : s.Accounted) : s.Conserved where
  once holder := by
    have le := le_total (fun _ held => held) s.pagesOf holder
    rw [total_pagesOf, accounted.sum] at le
    exact Multiset.nodup_of_le le accounted.nodup
  disjoint holder other ne := by
    have nodup := accounted.nodup
    rw [← accounted.sum, ← total_pagesOf] at nodup
    exact disjoint_of_nodup (fun _ held => held) nodup ne
  union page := by
    rw [← accounted.sum, ← total_pagesOf]
    unfold total
    simp
  localSize cpu := (accounted.sound.pool cpu).total
  globalSize := accounted.sound.globalPool.total
  globalPoolSize := accounted.sound.globalPoolSize.trans accounted.sound.globalPool.total
  freeSize := by
    intro fits
    have value : ∑ cpu, (s.allocator.cpus cpu).counter = _ := accounted.counter
    unfold loadTotalFreeSize
    rw [value]
    have small : (BitVec.ofNat 64 (s.allocator.held.card * pageSize)).toNat = s.allocator.held.card * pageSize := by
      rw [BitVec.toNat_ofNat, Nat.mod_eq_of_lt (by omega)]
    dsimp only
    rw [BitVec.toInt_eq_toNat_of_lt (by omega), small, if_neg (by omega)]

theorem conserved_of_run {s : Ledger n} {ops : List (Op n)} (run : Labelled.Run Step start ops s) : s.Conserved := by
  have keep s op (t : Ledger n) (inv : s.Accounted) (step : Step s op t) : t.Accounted := inv.step step
  exact (run.invariant keep accounted_start).conserved

/-- A call by a caller that keeps to its side. -/
def execCalled (op : Op n) : Res (Ledger n) :=
  if s.Called op then do
    let (_, t) ← s.exec op
    pure t
  else panicWith "contract violation"

theorem step_of_execCalled {s t : Ledger n} {op : Op n} (h : s.execCalled op = .ok t) : Step s op t := by
  obtain ⟨called, h⟩ := ite_ok.mp h
  obtain ⟨⟨res, t'⟩, returns, h⟩ := bind_ok.mp h
  cases h
  exact ⟨called, res, returns⟩

/-- Three frames are allocated on one CPU and one on another, which also frees two of the three. -/
def shared (cpu other : Fin n) : List (Op n) :=
  [.addFreeMemory cpu 0 (64 * pageSize), .alloc cpu 0 (.frames 3 0), .alloc other 0 (.frames 1 0),
    .dealloc other 0 pageSize (2 * pageSize), .alloc cpu 0 (.frames 5 3)]

theorem conserved_of_run_shared : ∃ s : Ledger 2,
    Labelled.Run Step start (shared 0 1) s ∧ s.Conserved ∧ s.allocated.card = 7 := by
  obtain ⟨s, returns, left⟩ := exists_ok_of_map (x := (shared 0 1).foldlM execCalled (start : Ledger 2))
    (f := fun s => s.allocated.card) (b := 7) (by decide +kernel)
  have run : Labelled.Run Step start (shared 0 1) s := .of_foldlM (fun _ _ _ _ => step_of_execCalled) returns
  exact ⟨s, run, conserved_of_run run, left⟩

end Ledger

end OmegaOsx.FrameAllocator
