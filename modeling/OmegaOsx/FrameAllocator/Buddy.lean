import OmegaOsx.Lib.Holdings
import OmegaOsx.MlsDisk.Basic
import Mathlib.Data.Nat.Bitwise

/-!
# Chunks and buddy sets

A chunk of order `o` is `2 ^ o` frames at an address aligned to its size. A `BuddySet` keeps one list
of free chunks for every order below its bound; inserting a chunk coalesces it with its buddy as
often as it can, and allocating one splits a larger chunk down.

The metadata of a chunk's first frame has the order of the chunk. That frames are unused, which
`UniqueFrame::from_unused` expects, is left out.

1. `insertChunk_run`: an inserted chunk's frames join those of the set.
2. `allocChunk_run`: an allocated chunk's frames leave them, and the chunk is aligned to its size.
3. `inv_of_run`: free chunks never overlap, and no two buddies below the last order are both free.
-/

namespace OmegaOsx.FrameAllocator

open List Function Holdings

open MlsDisk (bind_ok ok_bind guard_ok exists_ok_of_map)

abbrev Paddr := Nat

/-- Nothing here returns an error: what does not return panics. -/
abbrev Res (α : Type) := Except String α

def panicWith {α : Type} (msg : String) : Res α := .error msg

/-- Subtraction of `usize`s. -/
def checkedSub (a b : Nat) : Res Nat :=
  if a < b then panicWith "attempt to subtract with overflow" else .ok (a - b)

variable {a size : Nat}

theorem checkedSub_ok {b c : Nat} (h : checkedSub a b = .ok c) : b ≤ a ∧ c = a - b := by
  obtain ⟨valid, eq⟩ := guard_ok.mp h
  exact ⟨not_lt.mp valid, (Except.ok.inj eq).symm⟩

@[irreducible] def pageSize : Nat := 4096

theorem pageSize_eq : pageSize = 4096 := by unfold pageSize; rfl

theorem pageSize_pos : 0 < pageSize := by rw [pageSize_eq]; decide

variable (order : Nat)

def sizeOfOrder : Nat := 2 ^ order * pageSize

/-- An order that covers at least the size: the exponent of `next_power_of_two`. -/
def greaterOrderOf (size : Nat) : Nat :=
  let size := size / pageSize
  if size ≤ 1 then 0 else Nat.log2 (size - 1) + 1

/-- An order that covers at most the size, by `leading_zeros`; the size must not be zero. -/
def lesserOrderOf (size : Nat) : Res Nat :=
  let size := size / pageSize
  if size = 0 then panicWith "attempt to subtract with overflow" else .ok (Nat.log2 size)

/-- `usize::trailing_zeros`, 64 for zero. -/
def trailingZeros (x : Nat) : Nat := Nat.findGreatest (fun k => 2 ^ k ∣ x) 64

variable (addr : Paddr)

def maxOrderFrom : Res Nat := checkedSub (trailingZeros addr) (trailingZeros pageSize)

/-- The iterator `SplitChunks`; every chunk takes a frame at least, so `fuel` frames are enough. -/
def splitChunks : Nat → Paddr → Nat → Res (List (Paddr × Nat))
  | 0, _, size => if size ≠ 0 then panicWith "no fuel" else .ok []
  | fuel + 1, addr, size =>
    if size = 0 then .ok []
    else do
      let maxOrder ← maxOrderFrom addr
      let lesserOrder ← lesserOrderOf size
      let order := min maxOrder lesserOrder
      let chunkSize := sizeOfOrder order
      let rest ← splitChunks fuel (addr + chunkSize) (size - chunkSize)
      pure ((addr, order) :: rest)

def splitToChunks (size : Nat) : Res (List (Paddr × Nat)) :=
  if addr % pageSize ≠ 0 then panicWith "assertion failed: addr % PAGE_SIZE == 0"
  else if size % pageSize ≠ 0 then panicWith "assertion failed: size % PAGE_SIZE == 0"
  else splitChunks (size / pageSize) addr size

/-- The chunks of order `splitOrder` of a chunk. -/
def splitToOrder (order splitOrder : Nat) : Res (List Paddr) :=
  if addr % sizeOfOrder order ≠ 0 then
    panicWith "assertion failed: addr % size_of_order(order) == 0"
  else do
    let splitCount := 2 ^ (← checkedSub order splitOrder)
    let splitSize := sizeOfOrder splitOrder
    pure ((List.range splitCount).map (addr + splitSize * ·))

/-- The address of the buddy of a chunk. -/
def buddyOf (order : Nat) : Paddr := addr ^^^ sizeOfOrder order

/-- The address of the first frame, and the order in its metadata. -/
structure FreeChunk where
  addr : Paddr
  order : Nat
  deriving DecidableEq

namespace FreeChunk

def fromUnused (order : Nat) : Res FreeChunk :=
  if addr % sizeOfOrder order ≠ 0 then panicWith "assertion `left == right` failed" else .ok ⟨addr, order⟩

variable (chunk : FreeChunk)

def buddy : Paddr := buddyOf chunk.addr chunk.order

def splitFree : Res (FreeChunk × FreeChunk) := do
  let newOrder ← checkedSub chunk.order 1
  pure (⟨chunk.addr, newOrder⟩, ⟨buddyOf chunk.addr newOrder, newOrder⟩)

def mergeFree (buddy : FreeChunk) : Res FreeChunk :=
  let (left, right) := if buddy.addr < chunk.addr then (buddy, chunk) else (chunk, buddy)
  if left.order ≠ right.order then panicWith "assertion `left == right` failed"
  else if left.buddy ≠ right.addr then panicWith "assertion `left == right` failed"
  else .ok ⟨left.addr, left.order + 1⟩

end FreeChunk

/-- The free chunks of every order below `m`, and the sum of their sizes. -/
structure BuddySet (m : Nat) where
  totalSize : Nat
  lists : Fin m → List FreeChunk

namespace BuddySet

variable {m : Nat}

def newEmpty : BuddySet m := ⟨0, fun _ => []⟩

/-- `lists[order].push_front`. -/
def pushFront (lists : Fin m → List FreeChunk) (order : Nat) (chunk : FreeChunk) : Res (Fin m → List FreeChunk) :=
  if bound : order < m then .ok (Function.update lists ⟨order, bound⟩ (chunk :: lists ⟨order, bound⟩))
  else panicWith "index out of bounds"

/-- The loop over the lists of the orders `i`, `i + 1`, …: while the buddy is free, it is taken out of
its list and merged with the chunk. The last list is not looked at. -/
def coalesce : Nat → Nat → (Fin m → List FreeChunk) → FreeChunk →
    Res ((Fin m → List FreeChunk) × FreeChunk)
  | 0, _, lists, chunk => .ok (lists, chunk)
  | fuel + 1, i, lists, chunk =>
    if bound : i + 1 < m then
      let list : Fin m := ⟨i, Nat.lt_of_succ_lt bound⟩
      match (lists list).find? (·.addr = chunk.buddy) with
      | none => .ok (lists, chunk)
      | some taken => do
        let chunk ← chunk.mergeFree taken
        coalesce fuel (i + 1) (Function.update lists list ((lists list).erase taken)) chunk
    else .ok (lists, chunk)

def insertChunk (s : BuddySet m) (addr : Paddr) (order : Nat) : Res (BuddySet m) := do
  let chunk ← FreeChunk.fromUnused addr order
  let (lists, chunk) ← coalesce m chunk.order s.lists chunk
  let lists ← pushFront lists chunk.order chunk
  pure ⟨s.totalSize + sizeOfOrder order, lists⟩

/-- Splits a chunk `levels` orders above `order` down to it; the right halves go into the lists. -/
def splitDown (order : Nat) : Nat → FreeChunk → (Fin m → List FreeChunk) →
    Res (FreeChunk × (Fin m → List FreeChunk))
  | 0, chunk, lists => .ok (chunk, lists)
  | levels + 1, chunk, lists => do
    let (left, right) ← chunk.splitFree
    let lists ← pushFront lists (order + levels) right
    splitDown order levels left lists

/-- The smallest order from `order` on with a free chunk. -/
def firstNonEmpty (lists : Fin m → List FreeChunk) (order : Nat) : Option (Fin m) :=
  (List.finRange m).find? fun i => order ≤ i ∧ lists i ≠ []

def allocChunk (s : BuddySet m) (order : Nat) : Res (Option (Paddr × BuddySet m)) :=
  match firstNonEmpty s.lists order with
  | none => .ok none
  | some nonEmpty =>
    match s.lists nonEmpty with
    | [] => panicWith "called `Option::unwrap()` on a `None` value"
    | head :: rest => do
      let lists := Function.update s.lists nonEmpty rest
      let (chunk, lists) ← splitDown order (nonEmpty - order) head lists
      let totalSize ← checkedSub s.totalSize (sizeOfOrder order)
      pure (some (chunk.addr, ⟨totalSize, lists⟩))

end BuddySet

/-! ### Sizes, alignment and buddies -/

theorem sizeOfOrder_eq : sizeOfOrder order = 2 ^ (order + 12) := by
  rw [sizeOfOrder, pageSize_eq, Nat.pow_add]

theorem sizeOfOrder_pos : 0 < sizeOfOrder order := Nat.mul_pos (Nat.two_pow_pos order) pageSize_pos

theorem sizeOfOrder_succ : sizeOfOrder (order + 1) = sizeOfOrder order + sizeOfOrder order := by
  unfold sizeOfOrder
  rw [pow_succ, mul_two, add_mul]

theorem pageSize_dvd_sizeOfOrder : pageSize ∣ sizeOfOrder order := dvd_mul_left _ _

theorem sizeOfOrder_dvd {b : Nat} (le : a ≤ b) : sizeOfOrder a ∣ sizeOfOrder b :=
  mul_dvd_mul_right (pow_dvd_pow 2 le) _

theorem le_sizeOfOrder_greaterOrderOf (whole : pageSize ∣ size) : size ≤ sizeOfOrder (greaterOrderOf size) := by
  obtain ⟨n, rfl⟩ := whole
  unfold greaterOrderOf sizeOfOrder
  rw [Nat.mul_div_cancel_left _ pageSize_pos, mul_comm]
  apply Nat.mul_le_mul_right
  dsimp only
  split
  · assumption
  · have := @Nat.lt_log2_self (n - 1)
    omega

variable {order : Nat}

theorem lesserOrderOf_ok (h : lesserOrderOf size = .ok order) : sizeOfOrder order ≤ size := by
  obtain ⟨some_page, eq⟩ := guard_ok.mp h
  cases eq
  calc 2 ^ Nat.log2 (size / pageSize) * pageSize
      ≤ size / pageSize * pageSize := Nat.mul_le_mul_right _ (Nat.log2_self_le some_page)
    _ ≤ size := Nat.div_mul_le_self _ _

variable {addr : Paddr}

/-- A chunk and its buddy are the halves of a chunk of the next order. -/
theorem buddyOf_cases (aligned : sizeOfOrder order ∣ addr) :
    sizeOfOrder (order + 1) ∣ addr ∧ buddyOf addr order = addr + sizeOfOrder order ∨
      sizeOfOrder (order + 1) ∣ buddyOf addr order ∧ addr = buddyOf addr order + sizeOfOrder order := by
  obtain ⟨k, rfl⟩ := aligned
  have flip : buddyOf (sizeOfOrder order * k) order = sizeOfOrder order * (k ^^^ 1) := by
    have := Nat.shiftLeft_xor_distrib (a := k) (b := 1) (i := order + 12)
    simp only [Nat.shiftLeft_eq, one_mul] at this
    rw [buddyOf, sizeOfOrder_eq, mul_comm _ k, mul_comm _ (k ^^^ 1), this]
  have double : sizeOfOrder (order + 1) = sizeOfOrder order * 2 := by
    rw [sizeOfOrder_succ, mul_two]
  rw [flip, double]
  rcases Nat.even_or_odd k with even | odd
  · left
    rw [Nat.xor_one_of_even even, mul_add, mul_one]
    exact ⟨mul_dvd_mul_left _ even.two_dvd, rfl⟩
  · right
    rw [Nat.xor_one_of_odd odd]
    obtain ⟨j, rfl⟩ := odd
    exact ⟨mul_dvd_mul_left _ (dvd_mul_right 2 j), rfl⟩

theorem buddyOf_of_aligned (aligned : sizeOfOrder (order + 1) ∣ addr) :
    buddyOf addr order = addr + sizeOfOrder order := by
  have half : sizeOfOrder order ∣ addr := (sizeOfOrder_dvd (Nat.le_succ order)).trans aligned
  rcases buddyOf_cases half with ⟨-, eq⟩ | ⟨low, eq⟩
  · exact eq
  · -- then `addr` would be an odd multiple of its size
    have : sizeOfOrder (order + 1) ∣ sizeOfOrder order := by
      rw [eq] at aligned
      exact (Nat.dvd_add_right low).mp aligned
    have := Nat.le_of_dvd (sizeOfOrder_pos order) this
    have := sizeOfOrder_pos order
    rw [sizeOfOrder_succ] at *
    omega

/-! ### The pages of a range -/

/-- The numbers of the pages in `[addr, addr + size)`. -/
def pages (addr : Paddr) (size : Nat) : Multiset Nat :=
  ↑(List.range' (addr / pageSize) (size / pageSize))

theorem pages_nodup (addr : Paddr) (size : Nat) : (pages addr size).Nodup := Multiset.coe_nodup.mpr nodup_range'

theorem card_pages (addr : Paddr) (size : Nat) : (pages addr size).card = size / pageSize := by
  rw [pages, Multiset.coe_card, length_range']

theorem pages_add (addr : Paddr) (b : Nat) (whole : pageSize ∣ a) :
    pages addr (a + b) = pages addr a + pages (addr + a) b := by
  obtain ⟨n, rfl⟩ := whole
  unfold pages
  rw [Nat.mul_add_div pageSize_pos, Nat.add_mul_div_left _ _ pageSize_pos,
    Nat.mul_div_cancel_left _ pageSize_pos, Multiset.coe_add]
  exact congrArg _ (range'_append_1).symm

theorem pages_zero (addr : Paddr) : pages addr 0 = 0 := by
  rw [pages, Nat.zero_div]
  rfl

/-- A range cut into equal parts of whole pages. -/
theorem pages_mul (addr : Paddr) {part : Nat} (whole : pageSize ∣ part) (count : Nat) :
    pages addr (part * count) = ((List.range count).map fun i => pages (addr + part * i) part).sum := by
  induction count with
  | zero => exact pages_zero addr
  | succ n ih =>
    rw [Nat.mul_succ, pages_add addr part (whole.mul_right n), ih, range_succ, map_append,
      sum_append, map_singleton, sum_singleton]

def chunkPages (chunk : Paddr × Nat) : Multiset Nat := pages chunk.1 (sizeOfOrder chunk.2)

/-- A chunk is its left half and its right half. -/
theorem chunkPages_succ : chunkPages (addr, order + 1) =
      chunkPages (addr, order) + chunkPages (addr + sizeOfOrder order, order) := by
  unfold chunkPages
  rw [sizeOfOrder_succ]
  exact pages_add addr _ (pageSize_dvd_sizeOfOrder order)

theorem chunkPages_merge (aligned : sizeOfOrder order ∣ addr) :
    sizeOfOrder (order + 1) ∣ min addr (buddyOf addr order) ∧
      chunkPages (min addr (buddyOf addr order), order + 1) =
        chunkPages (buddyOf addr order, order) + chunkPages (addr, order) := by
  rcases buddyOf_cases aligned with ⟨low, eq⟩ | ⟨low, eq⟩
  · have first : min addr (buddyOf addr order) = addr := min_eq_left (eq ▸ Nat.le_add_right _ _)
    rw [first, chunkPages_succ, eq]
    exact ⟨low, add_comm _ _⟩
  · have first : min addr (buddyOf addr order) = buddyOf addr order := min_eq_right (Nat.le.intro eq.symm)
    rw [first, chunkPages_succ, ← eq]
    exact ⟨low, rfl⟩

theorem splitChunks_run {fuel : Nat} {chunks : List (Paddr × Nat)}
    (h : splitChunks fuel addr size = .ok chunks) : (chunks.map chunkPages).sum = pages addr size := by
  induction fuel generalizing addr size chunks with
  | zero =>
    obtain ⟨empty, eq⟩ := guard_ok.mp h
    cases eq
    rw [not_not.mp empty]
    exact (pages_zero addr).symm
  | succ fuel ih =>
    unfold splitChunks at h
    split at h
    · next empty =>
      cases h
      rw [empty]
      exact (pages_zero addr).symm
    obtain ⟨maxOrder, -, h⟩ := bind_ok.mp h
    obtain ⟨lesserOrder, lesser, h⟩ := bind_ok.mp h
    obtain ⟨rest, tail, h⟩ := bind_ok.mp h
    cases h
    have le : sizeOfOrder (min maxOrder lesserOrder) ≤ size :=
      (Nat.le_of_dvd (sizeOfOrder_pos _) (sizeOfOrder_dvd (min_le_right _ _))).trans (lesserOrderOf_ok lesser)
    rw [map_cons, sum_cons, ih tail, chunkPages, ← pages_add _ _ (pageSize_dvd_sizeOfOrder _), Nat.add_sub_cancel' le]

theorem splitToChunks_run {chunks : List (Paddr × Nat)} (h : splitToChunks addr size = .ok chunks) :
    pageSize ∣ size ∧ (chunks.map chunkPages).sum = pages addr size := by
  obtain ⟨-, h⟩ := guard_ok.mp h
  obtain ⟨whole, h⟩ := guard_ok.mp h
  exact ⟨Nat.dvd_of_mod_eq_zero (not_not.mp whole), splitChunks_run h⟩

theorem splitToOrder_run {splitOrder : Nat} {parts : List Paddr} (h : splitToOrder addr order splitOrder = .ok parts) :
    (parts.map fun part => chunkPages (part, splitOrder)).sum = chunkPages (addr, order) := by
  obtain ⟨-, h⟩ := guard_ok.mp h
  obtain ⟨levels, sub, h⟩ := bind_ok.mp h
  cases h
  obtain ⟨le, rfl⟩ := checkedSub_ok sub
  have size : sizeOfOrder order = sizeOfOrder splitOrder * 2 ^ (order - splitOrder) := by
    rw [sizeOfOrder_eq, sizeOfOrder_eq, ← pow_add, add_right_comm, Nat.add_sub_cancel' le]
  rw [map_map, chunkPages, size, pages_mul addr (pageSize_dvd_sizeOfOrder splitOrder)]
  rfl

/-! ### Free chunks -/

theorem card_chunkPages (addr : Paddr) (order : Nat) :
    (chunkPages (addr, order)).card * pageSize = sizeOfOrder order := by
  rw [chunkPages, card_pages]
  exact Nat.div_mul_cancel (pageSize_dvd_sizeOfOrder order)

theorem buddyOf_buddyOf : buddyOf (buddyOf addr order) order = addr := by
  rw [buddyOf, buddyOf, Nat.xor_assoc, Nat.xor_self, Nat.xor_zero]

theorem buddyOf_ne : addr ≠ buddyOf addr order := by
  intro same
  have := Nat.xor_right_injective (same.symm.trans (Nat.xor_zero addr).symm)
  exact absurd this (Nat.ne_of_gt (sizeOfOrder_pos order))

namespace FreeChunk

/-- A chunk of the order, aligned to its size. -/
def Of (chunk : FreeChunk) (order : Nat) : Prop := chunk.order = order ∧ sizeOfOrder order ∣ chunk.addr

def pages (chunk : FreeChunk) : Multiset Nat := chunkPages (chunk.addr, chunk.order)

variable {chunk buddy : FreeChunk}

theorem fromUnused_ok (h : fromUnused addr order = .ok chunk) : chunk = ⟨addr, order⟩ ∧ chunk.Of order := by
  obtain ⟨start, eq⟩ := guard_ok.mp h
  cases eq
  exact ⟨rfl, rfl, Nat.dvd_of_mod_eq_zero (not_not.mp start)⟩

theorem splitFree_run (of : chunk.Of (order + 1)) :
    ∃ right, chunk.splitFree = .ok (⟨chunk.addr, order⟩, right) ∧
    Of ⟨chunk.addr, order⟩ order ∧ right.Of order ∧
    pages ⟨chunk.addr, order⟩ + right.pages = chunk.pages := by
  obtain ⟨addr, _⟩ := chunk
  obtain ⟨rfl, aligned⟩ := of
  have half : sizeOfOrder order ∣ addr := (sizeOfOrder_dvd (Nat.le_succ _)).trans aligned
  have right : buddyOf addr order = addr + sizeOfOrder order := buddyOf_of_aligned aligned
  have split : splitFree ⟨addr, order + 1⟩ = .ok (⟨addr, order⟩, ⟨buddyOf addr order, order⟩) := by
    simp [splitFree, checkedSub]
  refine ⟨_, split, ⟨rfl, half⟩, ⟨rfl, ?_⟩, ?_⟩
  · exact right ▸ Nat.dvd_add half (dvd_refl _)
  · exact right ▸ chunkPages_succ.symm

/-- The assertions of `merge_free` hold for a chunk and its buddy. -/
theorem mergeFree_run (of : chunk.Of order) (of' : buddy.Of order) (eq : buddy.addr = chunk.buddy) :
    ∃ merged, chunk.mergeFree buddy = .ok merged ∧ merged.Of (order + 1) ∧
      merged.pages = buddy.pages + chunk.pages := by
  obtain ⟨addr, _⟩ := chunk
  obtain ⟨addr', order⟩ := buddy
  obtain ⟨rfl, aligned⟩ := of
  obtain ⟨rfl, -⟩ := of'
  obtain ⟨low, sum⟩ := chunkPages_merge aligned
  cases show addr' = buddyOf addr order from eq
  refine ⟨⟨min addr (buddyOf addr order), order + 1⟩, ?_, ⟨rfl, low⟩, sum⟩
  unfold mergeFree
  by_cases swap : buddyOf addr order < addr
  · simp [swap, FreeChunk.buddy, buddyOf_buddyOf, swap.le]
  · simp [swap, FreeChunk.buddy, not_lt.mp swap]

end FreeChunk

/-! ### Buddy sets -/

namespace BuddySet

variable {m : Nat}

/-- The pages of free chunks. -/
def listPages (list : List FreeChunk) : Multiset Nat := (list.map FreeChunk.pages).sum

def listsPages (lists : Fin m → List FreeChunk) : Multiset Nat := Holdings.total (fun _ => listPages) lists

/-- The pages of a set's free chunks. -/
def held (s : BuddySet m) : Multiset Nat := listsPages s.lists

/-- Every free chunk is in the list of its order and aligned to its size. -/
def Placed (lists : Fin m → List FreeChunk) : Prop := ∀ i : Fin m, ∀ chunk ∈ lists i, chunk.Of i

/-- Chunks are placed and the recorded size is that of the pages held. -/
structure Sound (s : BuddySet m) : Prop where
  placed : Placed s.lists
  total : s.totalSize = s.held.card * pageSize

theorem held_newEmpty : (newEmpty : BuddySet m).held = 0 := by
  unfold held listsPages total
  exact Finset.sum_eq_zero fun _ _ => rfl

theorem sound_newEmpty : (newEmpty : BuddySet m).Sound where
  placed := fun _ _ mem => nomatch mem
  total := by rw [held_newEmpty, Multiset.card_zero, zero_mul]; rfl

variable {lists lists' : Fin m → List FreeChunk} {chunk last : FreeChunk}

theorem Placed.update (placed : Placed lists) {i : Fin m} {list : List FreeChunk}
    (new : ∀ chunk ∈ list, chunk.Of i) :
    Placed (update lists i list) :=
  (forall_update_iff lists fun i list => ∀ chunk ∈ list, FreeChunk.Of chunk i).mpr ⟨new, fun j _ => placed j⟩

theorem pushFront_run (h : pushFront lists order chunk = .ok lists') (placed : Placed lists) (of : chunk.Of order) :
    Placed lists' ∧ listsPages lists' = chunk.pages + listsPages lists := by
  unfold pushFront at h
  split at h
  · next bound =>
    cases h
    refine ⟨placed.update (forall_mem_cons.mpr ⟨of, placed _⟩), ?_⟩
    have grown : listPages (lists ⟨order, bound⟩) + chunk.pages = listPages
      (chunk :: lists ⟨order, bound⟩) + 0 := by
      unfold listPages
      rw [map_cons, sum_cons, add_zero, add_comm]
    rw [add_comm]
    exact (add_zero _).symm.trans (total_update_of_eq (fun _ => listPages) grown).symm
  · cases h

theorem erase_run {i : Fin m} (mem : chunk ∈ lists i) (placed : Placed lists) :
    Placed (update lists i ((lists i).erase chunk)) ∧
      chunk.pages + listsPages (update lists i ((lists i).erase chunk)) = listsPages lists := by
  refine ⟨placed.update fun other left => placed i other (mem_of_mem_erase left), ?_⟩
  have shrunk : listPages (lists i) + 0 = listPages ((lists i).erase chunk) + chunk.pages := by
    unfold listPages
    rw [add_zero, add_comm, ← sum_cons]
    exact ((perm_cons_erase mem).map _).sum_eq
  rw [add_comm]
  exact (total_update_of_eq (fun _ => listPages) shrunk).symm.trans (add_zero _)

theorem update_subset {i : Fin m} {list : List FreeChunk} (fewer : list ⊆ lists i) :
    ∀ j, update lists i list j ⊆ lists j :=
  (forall_update_iff lists fun j list => list ⊆ lists j).mpr ⟨fewer, fun _ _ => Subset.refl _⟩

/-- The loop ends with a chunk whose buddy is not free, or with the last order. -/
theorem coalesce_run (fuel : Nat) (placed : Placed lists) (of : chunk.Of order) :
    ∃ lists' last, coalesce fuel order lists chunk = .ok (lists', last) ∧ Placed lists' ∧ last.Of last.order ∧
      last.pages + listsPages lists' = chunk.pages + listsPages lists ∧ (∀ i, lists' i ⊆ lists i) ∧
      (m ≤ fuel + order → ∀ i : Fin m, i = last.order → i + 1 < m → ∀ other ∈ lists' i,
      other.addr ≠ last.buddy) := by
  have here : chunk.Of chunk.order := of.1.symm ▸ of
  induction fuel generalizing lists chunk order with
  | zero => exact ⟨lists, chunk, rfl, placed, here, rfl, fun _ => Subset.refl _, fun enough i same below => by
      rw [same, of.1] at below
      omega⟩
  | succ fuel ih =>
    unfold coalesce
    split
    · dsimp only
      split
      · next absent =>
        refine ⟨lists, chunk, rfl, placed, here, rfl, fun _ => Subset.refl _, ?_⟩
        rintro - ⟨i, bound⟩ same - other mem
        cases same.trans of.1
        simpa using find?_eq_none.mp absent other mem
      · next taken found =>
        have mem := mem_of_find?_eq_some found
        obtain ⟨kept, out⟩ := erase_run mem placed
        obtain ⟨merged, merge, of', sum⟩ :=
          chunk.mergeFree_run of (placed _ _ mem) (by simpa using find?_some found)
        obtain ⟨lists', last, run, all, of'', eq, fewer, stop⟩ := ih kept of' (of'.1.symm ▸ of')
        refine ⟨lists', last, by rw [merge]; exact run, all, of'', ?_,
          fun i => Subset.trans (fewer i) (update_subset erase_subset i), fun enough => stop (by omega)⟩
        rw [eq, sum, ← out, add_right_comm, add_comm (_ + _) chunk.pages]
    · refine ⟨lists, chunk, rfl, placed, here, rfl, fun _ => Subset.refl _, fun _ i same below => ?_⟩
      rw [same, of.1] at below
      omega

/-- What `insert_chunk` does, peeled once for the results below. -/
theorem insertChunk_ok {s t : BuddySet m} (h : s.insertChunk addr order = .ok t) (placed : Placed s.lists) :
    ∃ lists last, FreeChunk.Of last last.order ∧ Placed lists ∧ (∀ i, lists i ⊆ s.lists i) ∧
      (∀ i : Fin m, i = last.order → i + 1 < m → ∀ other ∈ lists i, other.addr ≠ last.buddy) ∧
      last.pages + listsPages lists = chunkPages (addr, order) + s.held ∧
      pushFront lists last.order last = .ok t.lists ∧ t.totalSize = s.totalSize + sizeOfOrder order := by
  obtain ⟨chunk, unused, h⟩ := bind_ok.mp h
  obtain ⟨rfl, of⟩ := FreeChunk.fromUnused_ok unused
  obtain ⟨lists, last, run, kept, of', merged, fewer, stop⟩ := coalesce_run m placed of
  rw [run, ok_bind] at h
  obtain ⟨pushed, push, h⟩ := bind_ok.mp h
  cases h
  exact ⟨lists, last, of', kept, fewer, stop (Nat.le_add_right m _), merged, push, rfl⟩

theorem insertChunk_run {s t : BuddySet m} (h : s.insertChunk addr order = .ok t) (sound : s.Sound) :
    t.Sound ∧ t.held = s.held + chunkPages (addr, order) := by
  obtain ⟨lists, last, of, kept, -, -, merged, push, total⟩ := insertChunk_ok h sound.placed
  obtain ⟨placed, sum⟩ := pushFront_run push kept of
  have held : t.held = s.held + chunkPages (addr, order) := by rw [add_comm, ← merged, ← sum]; rfl
  refine ⟨⟨placed, ?_⟩, held⟩
  rw [total, held, Multiset.card_add, add_mul, card_chunkPages, sound.total]

theorem splitDown_run {levels : Nat} (h : splitDown order levels chunk lists = .ok (last, lists'))
    (placed : Placed lists)
    (of : chunk.Of (order + levels)) : Placed lists' ∧ last.Of order ∧
      last.pages + listsPages lists' = chunk.pages + listsPages lists := by
  induction levels generalizing lists chunk with
  | zero =>
    cases h
    exact ⟨placed, of, rfl⟩
  | succ levels ih =>
    obtain ⟨right, split, of, of', halves⟩ := chunk.splitFree_run of
    rw [splitDown, split, ok_bind] at h
    obtain ⟨pushedLists, push, h⟩ := bind_ok.mp h
    obtain ⟨placed', sum⟩ := pushFront_run push placed of'
    obtain ⟨all, of'', eq⟩ := ih h placed' of
    exact ⟨all, of'', by rw [eq, sum, ← add_assoc, halves]⟩

theorem allocChunk_run {s t : BuddySet m} (h : s.allocChunk order = .ok (some (addr, t))) (sound : s.Sound) :
    t.Sound ∧ s.held = t.held + chunkPages (addr, order) ∧ sizeOfOrder order ∣ addr := by
  unfold allocChunk at h
  split at h
  · cases h
  · next nonEmpty found =>
    split at h
    · cases h
    · next head rest eq =>
      obtain ⟨⟨chunk, lists⟩, split, h⟩ := bind_ok.mp h
      obtain ⟨totalSize, sub, h⟩ := bind_ok.mp h
      cases h
      have meets := find?_some found
      have enough : order ≤ nonEmpty := (of_decide_eq_true meets).1
      have mem : head ∈ s.lists nonEmpty := eq ▸ mem_cons_self
      have of : head.Of (order + (nonEmpty - order)) := by
        rw [Nat.add_sub_cancel' enough]
        exact sound.placed nonEmpty head mem
      obtain ⟨kept, out⟩ := erase_run mem sound.placed
      rw [eq, erase_cons_head] at kept out
      obtain ⟨placed, of', sum⟩ := splitDown_run split kept of
      have held : s.held = listsPages lists + chunkPages (chunk.addr, order) := by
        rw [add_comm, ← of'.1]
        exact (sum.trans out).symm
      refine ⟨⟨placed, ?_⟩, held, of'.2⟩
      show totalSize = (listsPages lists).card * pageSize
      rw [(checkedSub_ok sub).2, sound.total, held, Multiset.card_add, add_mul, card_chunkPages, Nat.add_sub_cancel]

/-! ### Coalesced sets -/

/-- No two buddies of an order below the last are both free. -/
def Coalesced (lists : Fin m → List FreeChunk) : Prop :=
  ∀ i : Fin m, i + 1 < m → ∀ chunk ∈ lists i, ∀ other ∈ lists i, other.addr ≠ buddyOf chunk.addr i

theorem Coalesced.mono (coalesced : Coalesced lists) (fewer : ∀ i, lists' i ⊆ lists i) : Coalesced lists' :=
  fun i below chunk mem other mem' => coalesced i below chunk (fewer i mem) other (fewer i mem')

/-- A chunk whose buddy is not free can be pushed. -/
theorem Coalesced.pushFront (coalesced : Coalesced lists) (h : pushFront lists order chunk = .ok lists')
    (apart : ∀ i : Fin m, i = order → i + 1 < m → ∀ other ∈ lists i, other.addr ≠ buddyOf chunk.addr i) :
    Coalesced lists' ∧ ∀ i : Fin m, i ≠ order → lists' i = lists i := by
  unfold BuddySet.pushFront at h
  split at h
  · next bound =>
    cases h
    refine ⟨fun i below => ?_, fun i other => update_of_ne (Fin.ne_of_val_ne other) _ _⟩
    by_cases same : i = ⟨order, bound⟩
    · subst same
      have free := apart _ rfl below
      simp only [update_self, forall_mem_cons]
      refine ⟨⟨buddyOf_ne, free⟩, fun old mem => ⟨fun eq => free old mem ?_, coalesced _ below old mem⟩⟩
      rw [eq, buddyOf_buddyOf]
    · rw [update_of_ne same]
      exact coalesced i below
  · cases h

theorem Coalesced.splitDown {levels : Nat} (coalesced : Coalesced lists)
    (h : splitDown order levels chunk lists = .ok (last, lists'))
    (empty : ∀ i : Fin m, order ≤ i → i < order + levels → lists i = []) : Coalesced lists' := by
  induction levels generalizing lists chunk with
  | zero =>
    cases h
    exact coalesced
  | succ levels ih =>
    obtain ⟨⟨left, right⟩, -, h⟩ := bind_ok.mp h
    obtain ⟨pushed, push, h⟩ := bind_ok.mp h
    obtain ⟨coalesced', others⟩ := coalesced.pushFront push fun i same _ => by
      rw [empty i (by omega) (by omega)]
      exact nofun
    refine ih coalesced' h fun i le lt => ?_
    rw [others i (by omega), empty i le (by omega)]

/-- Below the list that `alloc_chunk` takes from, all lists are empty. -/
theorem firstNonEmpty_min {found i : Fin m} (h : firstNonEmpty lists order = some found) (le : order ≤ i)
    (lt : i < found) : lists i = [] := by
  obtain ⟨-, k, bound, at_k, before⟩ := find?_eq_some_iff_getElem.mp h
  rw [getElem_finRange] at at_k
  have := before i (by rw [← at_k] at lt; exact lt)
  simpa [le] using this

/-- An insertion of a range that is not free, or an allocation. -/
inductive Step (s : BuddySet m) : BuddySet m → Prop
  | insertChunk {addr order t} : Disjoint s.held (chunkPages (addr, order)) →
      s.insertChunk addr order = .ok t → Step s t
  | allocChunk {addr order t} : s.allocChunk order = .ok (some (addr, t)) → Step s t

/-- A sound set whose chunks do not overlap. -/
structure Inv (s : BuddySet m) : Prop extends s.Sound where
  nodup : s.held.Nodup
  coalesced : Coalesced s.lists

theorem Inv.step {s t : BuddySet m} (inv : s.Inv) (step : Step s t) : t.Inv := by
  cases step with
  | insertChunk apart h =>
    obtain ⟨sound, held⟩ := insertChunk_run h inv.toSound
    refine ⟨sound, held ▸ Multiset.nodup_add.mpr ⟨inv.nodup, pages_nodup _ _, apart⟩, ?_⟩
    obtain ⟨lists, last, -, -, fewer, stop, -, push, -⟩ := insertChunk_ok h inv.placed
    refine ((inv.coalesced.mono fewer).pushFront push fun i same below => ?_).1
    rw [same]
    exact stop i same below
  | allocChunk h =>
    obtain ⟨sound, held, -⟩ := allocChunk_run h inv.toSound
    refine ⟨sound, Multiset.nodup_of_le (held ▸ Multiset.le_add_right _ _) inv.nodup, ?_⟩
    unfold BuddySet.allocChunk at h
    split at h
    · cases h
    · next found first =>
      split at h
      · cases h
      · next head rest eq =>
        obtain ⟨⟨chunk, lists⟩, split, h⟩ := bind_ok.mp h
        obtain ⟨totalSize, -, h⟩ := bind_ok.mp h
        cases h
        have taken := inv.coalesced.mono (update_subset (eq ▸ subset_cons_self _ _))
        refine taken.splitDown split fun i le lt => ?_
        have below : i < found := Fin.lt_def.mpr (by omega)
        rw [update_of_ne below.ne]
        exact firstNonEmpty_min first le below

/-- In every run, each free chunk is in the list of its order and aligned to it, the size is that of
the pages held, no page is in two chunks, and no two buddies below the last order are both free. -/
theorem inv_of_run {s : BuddySet m} (run : Relation.ReflTransGen Step newEmpty s) : s.Inv := by
  induction run with
  | refl =>
    refine ⟨sound_newEmpty, ?_, fun _ _ _ mem => nomatch mem⟩
    rw [held_newEmpty]
    exact Multiset.nodup_zero
  | tail _ step inv => exact inv.step step

/-- Two frames are inserted and merged; then the chunk is split for an allocation. -/
theorem inv_of_run_split : ∃ s t : BuddySet 3, Relation.ReflTransGen Step newEmpty t ∧ t.Inv ∧
    s.lists 1 = [⟨0, 1⟩] ∧ s.allocChunk 0 = .ok (some (0, t)) ∧ t.lists 0 = [⟨pageSize, 0⟩] ∧
    t.lists 1 = [] := by
  obtain ⟨⟨s, addr, t⟩, h, seen⟩ := exists_ok_of_map
    (x := do
      let s ← (← (newEmpty : BuddySet 3).insertChunk 0 0).insertChunk pageSize 0
      (← s.allocChunk 0).elim (panicWith "no chunk") fun r => pure (s, r))
    (f := fun x => ((x.1.lists 1, x.2.1), x.2.2.lists 0, x.2.2.lists 1))
    (b := (([⟨0, 1⟩], 0), [⟨pageSize, 0⟩], [])) (by decide +kernel)
  obtain ⟨r, first, h⟩ := bind_ok.mp h
  obtain ⟨s, second, h⟩ := bind_ok.mp h
  obtain ⟨_ | _, alloc, h⟩ := bind_ok.mp h
  · cases h
  cases h
  simp only [Prod.mk.injEq] at seen
  obtain ⟨⟨merged, rfl⟩, split, rest⟩ := seen
  have apart : Disjoint r.held (chunkPages (pageSize, 0)) := by
    rw [(insertChunk_run first sound_newEmpty).2, held_newEmpty]
    simp [chunkPages, pages, sizeOfOrder, pageSize_eq]
  have run := Relation.ReflTransGen.single (Step.insertChunk (by simp [held_newEmpty]) first)
    |>.tail (.insertChunk apart second) |>.tail (.allocChunk alloc)
  exact ⟨s, t, run, inv_of_run run, merged, alloc, split, rest⟩

end BuddySet

end OmegaOsx.FrameAllocator
