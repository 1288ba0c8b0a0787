import OmegaOsx.Lib.Table
import OmegaOsx.MlsDisk.BitMap
import Mathlib.Data.List.Sort
import Mathlib.Data.List.Rotate

/-!
# The chunk allocator

`ChunkAllocState` is the bitmap of allocated chunks with its next-fit cursor; the same type is
used by the running allocator and, with `in_journal` set, by the journal. `ChunkAllocEdit` is what a
transaction did to it. An allocation takes effect on the running state at once and is undone by an
abort; a deallocation of a chunk that an earlier transaction allocated takes effect at the commit.

The search of `alloc` is described by `freeFrom`: the free chunks in the order in which the cursor
meets them. An allocation takes the head of that list and leaves its tail (`alloc_run`).

The source's `alloc` returns an `Option` that is never `None`, since a full bitmap is a panic; the
model leaves the `Option` out, there and in `alloc_batch`, whose branch for `None` is never taken.
-/

namespace OmegaOsx.MlsDisk

open BitMap List Table

abbrev ChunkId := Nat

structure ChunkAllocState where
  allocMap : BitMap
  freeCount : Nat
  nextFree : Nat
  inJournal : Bool
  deriving DecidableEq, Repr

inductive ChunkEdit
  | alloc
  | dealloc
  deriving DecidableEq, Repr

variable {state : ChunkAllocState} {p : ChunkId} {rest ids : List ChunkId}

namespace ChunkAllocState

def new (capacity : Nat) : ChunkAllocState :=
  { allocMap := List.replicate capacity false, freeCount := capacity, nextFree := 0
    inJournal := false }

def newInJournal (capacity : Nat) : ChunkAllocState :=
  { allocMap := List.replicate capacity false, freeCount := capacity, nextFree := 0
    inJournal := true }

/-- `first_zero`, behind the index check. -/
def firstZeroFrom (state : ChunkAllocState) (start : Nat) : Res (Option ChunkId) := do
  state.allocMap.checkIndex start
  pure (state.allocMap.firstZero start)

/-- The state after `chunkId` was found free. -/
def take (state : ChunkAllocState) (chunkId : ChunkId) : ChunkAllocState :=
  { state with
    allocMap := state.allocMap.set chunkId true
    freeCount := state.freeCount - 1
    nextFree := chunkId + 1 }

/-- The search of `alloc`: from the cursor to the end, then from the start. -/
def findFree (state : ChunkAllocState) : Res ChunkId := do
  let nextFree := if state.nextFree = state.allocMap.length then 0 else state.nextFree
  match ← state.firstZeroFrom nextFree with
  | some chunkId => pure chunkId
  | none =>
    match ← state.firstZeroFrom 0 with
    | some chunkId => pure chunkId
    | none => panicWith "there must exists a zero"

def alloc (state : ChunkAllocState) : Res (ChunkId × ChunkAllocState) := do
  let freeChunkId ← state.findFree
  let allocMap ← state.allocMap.setBit freeChunkId true
  let freeCount ← checkedSub state.freeCount 1
  pure (freeChunkId, { state with allocMap, freeCount, nextFree := freeChunkId + 1 })

def dealloc (state : ChunkAllocState) (chunkId : ChunkId) : Res ChunkAllocState := do
  let allocMap ← state.allocMap.setBit chunkId false
  pure { state with allocMap, freeCount := state.freeCount + 1 }

/-- `count` allocations in a row, as `alloc_batch` makes them under one lock. -/
def allocMany : Nat → ChunkAllocState → Res (List ChunkId × ChunkAllocState)
  | 0, state => pure ([], state)
  | count + 1, state => do
    let (chunkId, state) ← state.alloc
    let (ids, state) ← allocMany count state
    pure (chunkId :: ids, state)

def deallocAll (state : ChunkAllocState) (ids : List ChunkId) : Res ChunkAllocState :=
  ids.foldlM dealloc state

def capacity (state : ChunkAllocState) : Nat := state.allocMap.length

/-- The counter counts the free chunks and the cursor is a chunk or one past the last. -/
structure Wf (state : ChunkAllocState) : Prop where
  freeCount_eq : state.freeCount = state.allocMap.count false
  nextFree_le : state.nextFree ≤ state.capacity

/-- The free chunks in the order in which the search meets them. -/
def freeFrom (state : ChunkAllocState) : List ChunkId :=
  ((List.range state.capacity).rotate state.nextFree).filter state.allocMap.isFree

open Nat

theorem isFree_set {bm : BitMap} {p i : Nat} : isFree (bm.set p true) i = (bm.isFree i && i != p) := by
  rw [Bool.eq_iff_iff, isFree_iff, Bool.and_eq_true, isFree_iff, bne_iff_ne, getElem?_set]
  split
  · next same =>
    subst same
    split <;> simp
  · next other => exact ⟨fun h => ⟨h, Ne.symm other⟩, And.left⟩

/-- Taking the first chunk of the search order leaves the others in their order. -/
theorem freeFrom_take (found : state.freeFrom = p :: rest) : (state.take p).freeFrom = rest := by
  obtain ⟨before, after, split, taken, -, tail⟩ := filter_eq_cons_iff.mp found
  -- the new order is the old one rotated past `p`
  have position : p = (state.nextFree + before.length) % state.capacity := by
    have at_p : ((range state.capacity).rotate state.nextFree)[before.length]? = some p := by
      rw [split]
      simp
    have := List.getElem?_eq_some_iff.mp at_p
    simpa [add_comm] using this.2.symm
  have order : (range state.capacity).rotate (p + 1) = after ++ (before ++ [p]) := by
    have same : (range state.capacity).rotate (p + 1) =
        ((range state.capacity).rotate state.nextFree).rotate (before.length + 1) := by
      rw [rotate_rotate, ← rotate_mod _ (p + 1), ← rotate_mod _ (_ + _), length_range, position,
        mod_add_mod, add_assoc]
    rw [same, split, rotate_eq_drop_append_take (by simp), take_length_add_append]
    simp
  show filter (isFree (state.allocMap.set p true)) ((range (state.allocMap.set p true).length).rotate (p + 1)) = rest
  rw [length_set]
  have nodup : ((range state.capacity).rotate state.nextFree).Nodup := nodup_rotate.mpr nodup_range
  rw [split] at nodup
  have fresh : p ∉ after := (nodup_cons.mp (nodup_append.mp nodup).2.1).1
  show filter _ ((range state.capacity).rotate (p + 1)) = rest
  rw [order, filter_append, ← tail]
  have none : filter (isFree (state.allocMap.set p true)) (before ++ [p]) = [] := by
    rw [filter_eq_nil_iff]
    intro i mem free
    rw [isFree_set, Bool.and_eq_true, bne_iff_ne] at free
    rcases mem_append.mp mem with earlier | last
    · exact taken i earlier free.1
    · exact free.2 (mem_singleton.mp last)
  rw [none, append_nil]
  refine filter_congr fun i mem => ?_
  have other : i ≠ p := fun same => fresh (same ▸ mem)
  rw [isFree_set, bne_iff_ne.mpr other, Bool.and_true]

theorem mem_freeFrom {i : ChunkId} : i ∈ state.freeFrom ↔ state.allocMap[i]? = some false := by
  unfold freeFrom
  rw [mem_filter, mem_rotate, mem_range, isFree_iff]
  exact ⟨And.right, fun free => ⟨(List.getElem?_eq_some_iff.mp free).1, free⟩⟩

theorem nodup_freeFrom (state : ChunkAllocState) : state.freeFrom.Nodup := (nodup_rotate.mpr nodup_range).filter _

theorem length_freeFrom (state : ChunkAllocState) : state.freeFrom.length = state.allocMap.count false := by
  have bits : state.allocMap = (range state.capacity).map fun i => (state.allocMap[i]?).getD true :=
    ext_getElem (by simp [capacity]) fun i inside _ => by simp [inside]
  rw [freeFrom, ← countP_eq_length_filter, (rotate_perm _ _).countP_eq, List.count]
  conv_rhs => rw [bits, countP_map]
  refine countP_congr fun i mem => ?_
  have inside : i < state.allocMap.length := mem_range.mp mem
  rw [isFree_iff]
  simp [inside]

/-- The two searches of `alloc` cover the search order. -/
theorem freeFrom_eq (wf : state.Wf) : state.freeFrom =
      (range' state.nextFree (state.capacity - state.nextFree)).filter state.allocMap.isFree ++
        (range' 0 state.nextFree).filter state.allocMap.isFree := by
  have split : range state.capacity = range' 0 state.nextFree ++
        range' state.nextFree (state.capacity - state.nextFree) := by
    have whole : state.nextFree + (state.capacity - state.nextFree) = state.capacity :=
      Nat.add_sub_cancel' wf.nextFree_le
    rw [range_eq_range', ← whole, ← range'_append_1, zero_add, whole]
  unfold freeFrom
  rw [rotate_eq_drop_append_take (length_range.symm ▸ wf.nextFree_le), split,
    drop_left' (by simp), take_left' (by simp), filter_append]

theorem firstZeroFrom_of_lt {start : Nat} (inside : start < state.capacity) : state.firstZeroFrom start = .ok
      ((range' start (state.capacity - start)).filter state.allocMap.isFree).head? := by
  unfold firstZeroFrom
  rw [checkIndex_of_lt inside, firstZero_eq_head?]
  rfl

theorem count_take (free : state.allocMap[p]? = some false) :
    (state.allocMap.set p true).count false + 1 = state.allocMap.count false := by
  obtain ⟨inside, zero⟩ := List.getElem?_eq_some_iff.mp free
  have positive : 0 < state.allocMap.count false := count_pos_iff.mpr (zero ▸ getElem_mem inside)
  rw [count_set inside, zero]
  simp
  omega

theorem Wf.take (wf : state.Wf) (free : state.allocMap[p]? = some false) : (state.take p).Wf where
  freeCount_eq := by
    have := count_take free
    have := wf.freeCount_eq
    show state.freeCount - 1 = (state.allocMap.set p true).count false
    omega
  nextFree_le := by
    show p + 1 ≤ (state.allocMap.set p true).length
    rw [length_set]
    exact (List.getElem?_eq_some_iff.mp free).1

theorem findFree_run (wf : state.Wf) (found : state.freeFrom = p :: rest) : state.findFree = .ok p := by
  have free : state.allocMap[p]? = some false := mem_freeFrom.mp (found ▸ mem_cons_self)
  have inside : p < state.capacity := (List.getElem?_eq_some_iff.mp free).1
  have start : 0 < state.capacity := zero_lt_of_lt inside
  have order := freeFrom_eq wf
  rw [found] at order
  unfold findFree
  dsimp only
  by_cases wrapped : state.nextFree = state.allocMap.length
  · -- the cursor is past the last chunk
    rw [show state.nextFree = state.capacity from wrapped, Nat.sub_self] at order
    rw [if_pos wrapped, firstZeroFrom_of_lt start, Nat.sub_zero]
    rw [show filter _ (range' 0 state.capacity) = p :: rest from order.symm]
    rfl
  have cursor : state.nextFree < state.capacity := lt_of_le_of_ne wf.nextFree_le wrapped
  rw [if_neg wrapped, firstZeroFrom_of_lt cursor]
  generalize high : filter state.allocMap.isFree
    (range' state.nextFree (state.capacity - state.nextFree)) = upper at order ⊢
  cases upper with
  | cons q upper =>
    cases order
    rfl
  | nil =>
    have whole := range'_append_1 (s := 0) (m := state.nextFree) (n := state.capacity - state.nextFree)
    rw [zero_add, Nat.add_sub_cancel' wf.nextFree_le] at whole
    rw [firstZeroFrom_of_lt start, ok_bind, Nat.sub_zero, ← whole, filter_append, high,
      append_nil, ← nil_append (filter _ _), ← order]
    rfl

/-- An allocation takes the first free chunk of the search order. -/
theorem alloc_run (wf : state.Wf) (found : state.freeFrom = p :: rest) : state.alloc = .ok (p, state.take p) := by
  have free : state.allocMap[p]? = some false := mem_freeFrom.mp (found ▸ mem_cons_self)
  have room : 1 ≤ state.freeCount := by
    have := count_take free
    have := wf.freeCount_eq
    omega
  unfold alloc
  rw [findFree_run wf found, ok_bind, setBit_ok.mpr ⟨(List.getElem?_eq_some_iff.mp free).1, rfl⟩, ok_bind,
    checkedSub_of_le room]
  rfl

theorem alloc_full (full : state.freeFrom = []) : ∃ fault, state.alloc = .error fault := by
  have empty start : ((range' start (state.capacity - start)).filter state.allocMap.isFree).head? = none := by
    rw [head?_eq_none_iff, filter_eq_nil_iff]
    intro i _ free
    have := mem_freeFrom.mpr (isFree_iff.mp free)
    rw [full] at this
    cases this
  have search start : (∃ fault, state.firstZeroFrom start = .error fault) ∨
    state.firstZeroFrom start = .ok none := by
    by_cases inside : start < state.capacity
    · exact .inr (by rw [firstZeroFrom_of_lt inside, empty])
    obtain ⟨fault, e⟩ := checkIndex_of_le (not_lt.mp inside)
    exact .inl ⟨fault, by
      unfold firstZeroFrom
      rw [e]
      rfl⟩
  have failed : ∃ fault, state.findFree = .error fault := by
    unfold findFree
    dsimp only
    rcases search (if state.nextFree = state.allocMap.length then 0 else state.nextFree) with
      ⟨fault, e⟩ | e
    · exact ⟨fault, by rw [e]; rfl⟩
    · rcases search 0 with ⟨fault, e'⟩ | e'
      · exact ⟨fault, by rw [e, e']; rfl⟩
      · exact ⟨_, by rw [e, e']; rfl⟩
  obtain ⟨fault, e⟩ := failed
  exact ⟨fault, by unfold alloc; rw [e]; rfl⟩

variable {state' : ChunkAllocState} {value : Bool} {count : Nat}

theorem alloc_ok (wf : state.Wf) (run : state.alloc = .ok (p, state')) :
    state.allocMap[p]? = some false ∧ state' = state.take p := by
  cases found : state.freeFrom with
  | nil =>
    obtain ⟨fault, e⟩ := alloc_full found
    rw [run] at e
    cases e
  | cons q rest =>
    have := alloc_run wf found
    rw [run] at this
    cases this
    exact ⟨mem_freeFrom.mp (found ▸ mem_cons_self), rfl⟩

/-- The bits of `ids` were flipped to `value`, nothing else changed in the bitmap. -/
structure Flipped (value : Bool) (state : ChunkAllocState) (ids : List ChunkId)
    (state' : ChunkAllocState) : Prop where
  wf : state'.Wf
  capacity_eq : state'.capacity = state.capacity
  inJournal_eq : state'.inJournal = state.inJournal
  bit : ∀ i, state'.allocMap[i]? = if i ∈ ids then some value else state.allocMap[i]?

theorem Flipped.refl (wf : state.Wf) :
    Flipped value state [] state := ⟨wf, rfl, rfl, fun _ => (if_neg not_mem_nil).symm⟩

theorem Flipped.trans {s t u : ChunkAllocState} {ids' : List ChunkId} (first : Flipped value s ids t)
    (second : Flipped value t ids' u) : Flipped value s (ids ++ ids') u where
  wf := second.wf
  capacity_eq := second.capacity_eq.trans first.capacity_eq
  inJournal_eq := second.inJournal_eq.trans first.inJournal_eq
  bit i := by
    rw [second.bit, first.bit]
    split <;> split <;> simp_all

variable (wf : state.Wf)
include wf

theorem Flipped.take (free : state.allocMap[p]? = some false) : Flipped true state [p] (state.take p) where
  wf := wf.take free
  capacity_eq := length_set
  inJournal_eq := rfl
  bit i := by
    show (state.allocMap.set p true)[i]? = _
    have inside : p < state.allocMap.length := (List.getElem?_eq_some_iff.mp free).1
    rw [getElem?_set, if_pos inside]
    simp only [mem_singleton, eq_comm]

theorem dealloc_run (taken : state.allocMap[p]? = some true) :
    ∃ state', state.dealloc p = .ok state' ∧ Flipped false state [p] state' := by
  obtain ⟨inside, one⟩ := List.getElem?_eq_some_iff.mp taken
  refine ⟨{ state with
    allocMap := state.allocMap.set p false
    freeCount := state.freeCount + 1 }, ?_, ?_, length_set, rfl, fun i => ?_⟩
  · unfold dealloc
    rw [setBit_ok.mpr ⟨inside, rfl⟩]
    rfl
  · refine ⟨?_, ?_⟩
    · rw [count_set inside, one, wf.freeCount_eq]
      simp
    · exact wf.nextFree_le.trans_eq length_set.symm
  · rw [getElem?_set, if_pos inside]
    simp only [mem_singleton, eq_comm]

/-- A batch takes a front part of the search order. -/
theorem allocMany_run (room : count ≤ state.freeFrom.length) :
    ∃ state', allocMany count state = .ok (state.freeFrom.take count, state') ∧
      Flipped true state (state.freeFrom.take count) state' := by
  induction count generalizing state with
  | zero => exact ⟨state, rfl, .refl wf⟩
  | succ count ih =>
    cases found : state.freeFrom with
    | nil =>
      rw [found] at room
      cases room
    | cons p rest =>
      have free : state.allocMap[p]? = some false := mem_freeFrom.mp (found ▸ mem_cons_self)
      have rest_eq := freeFrom_take found
      rw [found] at room
      obtain ⟨state', run, flipped⟩ := ih (wf.take free) (rest_eq ▸ le_of_succ_le_succ room)
      rw [rest_eq] at run flipped
      refine ⟨state', ?_, (Flipped.take wf free).trans flipped⟩
      unfold allocMany
      rw [alloc_run wf found, ok_bind]
      dsimp only
      rw [run]
      rfl

theorem allocMany_room (run : allocMany count state = .ok (ids, state')) : count ≤ state.freeFrom.length := by
  induction count generalizing state state' ids with
  | zero => exact zero_le _
  | succ count ih =>
    obtain ⟨⟨p, mid⟩, first, rest⟩ := bind_ok.mp run
    obtain ⟨⟨ids', last⟩, more, -⟩ := bind_ok.mp rest
    obtain ⟨free, rfl⟩ := alloc_ok wf first
    cases found : state.freeFrom with
    | nil =>
      obtain ⟨fault, e⟩ := alloc_full found
      rw [first] at e
      cases e
    | cons q tail =>
      have := alloc_run wf found
      rw [first] at this
      cases this
      have bound := ih (wf.take free) more
      rw [freeFrom_take found] at bound
      exact succ_le_succ bound

theorem deallocAll_run (nodup : ids.Nodup) (taken : ∀ i ∈ ids, state.allocMap[i]? = some true) :
    ∃ state', state.deallocAll ids = .ok state' ∧ Flipped false state ids state' := by
  induction ids generalizing state with
  | nil => exact ⟨state, rfl, .refl wf⟩
  | cons p ids ih =>
    obtain ⟨fresh, nodup⟩ := nodup_cons.mp nodup
    obtain ⟨mid, run, flipped⟩ := dealloc_run wf (taken p mem_cons_self)
    have still : ∀ i ∈ ids, mid.allocMap[i]? = some true := by
      intro i mem
      have other : i ∉ [p] := fun h => fresh (mem_singleton.mp h ▸ mem)
      rw [flipped.bit, if_neg other]
      exact taken i (mem_cons_of_mem _ mem)
    obtain ⟨state', run', flipped'⟩ := ih flipped.wf nodup still
    refine ⟨state', ?_, flipped.trans flipped'⟩
    unfold deallocAll
    rw [foldlM_cons, run]
    exact run'

end ChunkAllocState

/-- What a transaction did to the chunks it touched. -/
abbrev ChunkAllocEdit := Table ChunkId ChunkEdit

variable {edit : ChunkAllocEdit} {entries : List ((_ : ChunkId) × ChunkEdit)}

namespace ChunkAllocEdit

def alloc (edit : ChunkAllocEdit) (chunkId : ChunkId) : Res ChunkAllocEdit :=
  if (edit.lookup chunkId).isSome then panicWith "assertion failed: old_edit.is_none()"
  else pure (edit.insert chunkId .alloc)

/-- The flag says whether the chunk can be deallocated at once. -/
def dealloc (edit : ChunkAllocEdit) (chunkId : ChunkId) : Res (Bool × ChunkAllocEdit) :=
  match edit.lookup chunkId with
  | none => pure (false, edit.insert chunkId .dealloc)
  | some .alloc => pure (true, edit.erase chunkId)
  | some .dealloc => panicWith "a chunk must not be deallocated twice"

def iterAllocatedChunks (edit : ChunkAllocEdit) : List ChunkId := edit.keysWith (· == .alloc)

/-- The chunks `apply_to` collects for deallocation. -/
def deallocatedChunks (edit : ChunkAllocEdit) : List ChunkId := edit.keysWith (· == .dealloc)

/-- One round of the loop of `apply_to`, with the chunks to be deallocated so far. -/
def applyEntry : ChunkAllocState × List ChunkId → (_ : ChunkId) × ChunkEdit →
    Res (ChunkAllocState × List ChunkId)
  | (state, toBeDeallocated), ⟨_, .alloc⟩ =>
    if state.inJournal then do
      let (_, state) ← state.alloc
      pure (state, toBeDeallocated)
    else pure (state, toBeDeallocated)
  | (state, toBeDeallocated), ⟨chunkId, .dealloc⟩ => pure (state, toBeDeallocated ++ [chunkId])

def applyTo (edit : ChunkAllocEdit) (state : ChunkAllocState) : Res ChunkAllocState := do
  let (state, toBeDeallocated) ← edit.entries.foldlM applyEntry (state, [])
  state.deallocAll toBeDeallocated

variable {i : ChunkId}

theorem mem_allocated : i ∈ edit.iterAllocatedChunks ↔ edit.lookup i = some .alloc := by
  unfold iterAllocatedChunks
  rw [mem_keysWith]
  simp

theorem mem_deallocated : i ∈ edit.deallocatedChunks ↔ edit.lookup i = some .dealloc := by
  unfold deallocatedChunks
  rw [mem_keysWith]
  simp

theorem nodup_allocated (edit : ChunkAllocEdit) : edit.iterAllocatedChunks.Nodup := nodup_keysWith _ edit

theorem nodup_deallocated (edit : ChunkAllocEdit) : edit.deallocatedChunks.Nodup := nodup_keysWith _ edit

/-- Outside the journal the loop only collects. -/
theorem applyEntries_volatile {sofar : List ChunkId} (volatile : state.inJournal = false) :
    entries.foldlM applyEntry (state, sofar) = .ok
      (state, sofar ++ (entries.filter (·.2 == .dealloc)).map (·.1)) := by
  induction entries generalizing sofar with
  | nil => simp [pure, Except.pure]
  | cons entry entries ih =>
    obtain ⟨i, e⟩ := entry
    rw [foldlM_cons]
    cases e with
    | alloc =>
      have step : applyEntry (state, sofar) ⟨i, .alloc⟩ = .ok (state, sofar) := if_neg (by simp [volatile])
      rw [step, ok_bind, ih]
      rfl
    | dealloc =>
      have step : applyEntry (state, sofar) ⟨i, .dealloc⟩ = .ok (state, sofar ++ [i]) := rfl
      rw [step, ok_bind, ih, append_assoc]
      rfl

/-- In the journal the loop makes as many allocations as the edit has, of whatever chunks the
search finds. -/
theorem applyEntries_journal (sofar : List ChunkId) (journal : state.inJournal = true) (wf : state.Wf)
    (room : (entries.filter (·.2 == .alloc)).length ≤ state.freeFrom.length) :
    ∃ state', entries.foldlM applyEntry (state, sofar) =
        .ok (state', sofar ++ (entries.filter (·.2 == .dealloc)).map (·.1)) ∧
      state.Flipped true (state.freeFrom.take (entries.filter (·.2 == .alloc)).length) state' := by
  induction entries generalizing sofar state with
  | nil => exact ⟨state, by simp [pure, Except.pure], .refl wf⟩
  | cons entry entries ih =>
    obtain ⟨i, e⟩ := entry
    rw [foldlM_cons]
    cases e with
    | alloc =>
      cases found : state.freeFrom with
      | nil =>
        rw [found] at room
        cases room
      | cons p rest =>
        have free := ChunkAllocState.mem_freeFrom.mp (found ▸ mem_cons_self)
        have step : applyEntry (state, sofar) ⟨i, .alloc⟩ = .ok (state.take p, sofar) := by
          show (if state.inJournal then _ else _) = _
          rw [if_pos journal, ChunkAllocState.alloc_run wf found]
          rfl
        have rest_eq := ChunkAllocState.freeFrom_take found
        rw [found] at room
        obtain ⟨state', run, flipped⟩ := ih sofar (show (state.take p).inJournal = true from journal) (wf.take free)
          (rest_eq ▸ Nat.le_of_succ_le_succ room)
        rw [rest_eq] at flipped
        refine ⟨state', ?_, (ChunkAllocState.Flipped.take wf free).trans flipped⟩
        rw [step, ok_bind, run]
        rfl
    | dealloc =>
      have step : applyEntry (state, sofar) ⟨i, .dealloc⟩ = .ok (state, sofar ++ [i]) := rfl
      obtain ⟨state', run, flipped⟩ := ih (sofar ++ [i]) journal wf room
      refine ⟨state', ?_, flipped⟩
      rw [step, ok_bind, run, append_assoc]
      rfl

/-- On the running allocator a commit only releases. -/
theorem applyTo_volatile (volatile : state.inJournal = false) (wf : state.Wf)
    (taken : ∀ i, edit.lookup i = some .dealloc → state.allocMap[i]? = some true) :
    ∃ state', edit.applyTo state = .ok state' ∧ state.Flipped false edit.deallocatedChunks state' := by
  obtain ⟨state', run, flipped⟩ := ChunkAllocState.deallocAll_run wf
    edit.nodup_deallocated fun i mem => taken i (mem_deallocated.mp mem)
  refine ⟨state', ?_, flipped⟩
  unfold applyTo
  rw [applyEntries_volatile volatile]
  exact run

/-- In the journal a commit takes the next free chunks of the journal's own search, then releases. -/
theorem applyTo_journal (journal : state.inJournal = true) (wf : state.Wf)
    (room : edit.iterAllocatedChunks.length ≤ state.freeFrom.length)
    (taken : ∀ i, edit.lookup i = some .dealloc → state.allocMap[i]? = some true) :
    ∃ mid state', edit.applyTo state = .ok state' ∧
      state.Flipped true (state.freeFrom.take edit.iterAllocatedChunks.length) mid ∧
      mid.Flipped false edit.deallocatedChunks state' := by
  have length : edit.iterAllocatedChunks.length = (edit.entries.filter (·.2 == .alloc)).length := length_map _
  rw [length] at room ⊢
  obtain ⟨mid, run, took⟩ := applyEntries_journal [] journal wf room
  have still : ∀ i ∈ edit.deallocatedChunks, mid.allocMap[i]? = some true := by
    intro i mem
    rw [took.bit]
    split
    · rfl
    · exact taken i (mem_deallocated.mp mem)
  obtain ⟨state', run', released⟩ := ChunkAllocState.deallocAll_run took.wf edit.nodup_deallocated still
  refine ⟨mid, state', ?_, took, released⟩
  unfold applyTo
  rw [run]
  exact run'

/-- `edit'` is `edit` with an allocation recorded for each of `ids`. -/
def Recorded (edit : ChunkAllocEdit) (ids : List ChunkId) (edit' : ChunkAllocEdit) : Prop :=
  ∀ i, edit'.lookup i = if i ∈ ids then some .alloc else edit.lookup i

theorem alloc_run (fresh : edit.lookup p = none) : ∃ edit', edit.alloc p = .ok edit' ∧ edit.Recorded [p] edit' := by
  refine ⟨edit.insert p .alloc, ?_, fun i => ?_⟩
  · unfold alloc
    rw [fresh]
    rfl
  · rw [lookup_insert_ite]
    simp only [mem_singleton]

theorem allocAll_run (nodup : ids.Nodup) (fresh : ∀ i ∈ ids, edit.lookup i = none) :
    ∃ edit', ids.foldlM alloc edit = .ok edit' ∧ edit.Recorded ids edit' := by
  induction ids generalizing edit with
  | nil => exact ⟨edit, rfl, fun i => (if_neg not_mem_nil).symm⟩
  | cons p ids ih =>
    obtain ⟨absent, nodup⟩ := nodup_cons.mp nodup
    obtain ⟨mid, run, first⟩ := alloc_run (fresh p mem_cons_self)
    have still : ∀ i ∈ ids, mid.lookup i = none := by
      intro i mem
      have other : i ∉ [p] := fun h => absent (mem_singleton.mp h ▸ mem)
      rw [first, if_neg other]
      exact fresh i (mem_cons_of_mem _ mem)
    obtain ⟨edit', run', rest⟩ := ih nodup still
    refine ⟨edit', ?_, fun i => ?_⟩
    · rw [foldlM_cons, run, ok_bind, run']
    · rw [rest, first]
      split <;> split <;> simp_all

end ChunkAllocEdit

/-! ## The operations of `ChunkAlloc`, on the running state and the current transaction's edit -/

namespace ChunkAlloc

def alloc (state : ChunkAllocState) (edit : ChunkAllocEdit) :
    Res (ChunkId × ChunkAllocState × ChunkAllocEdit) := do
  let (chunkId, state) ← state.alloc
  let edit ← edit.alloc chunkId
  pure (chunkId, state, edit)

def allocBatch (state : ChunkAllocState) (edit : ChunkAllocEdit) (count : Nat) :
    Res (List ChunkId × ChunkAllocState × ChunkAllocEdit) := do
  let (ids, state) ← ChunkAllocState.allocMany count state
  let chunkIds := ids.insertionSort (· ≤ ·)
  let edit ← chunkIds.foldlM ChunkAllocEdit.alloc edit
  pure (chunkIds, state, edit)

def dealloc : ChunkAllocState × ChunkAllocEdit → ChunkId → Res (ChunkAllocState × ChunkAllocEdit)
  | (state, edit), chunkId => do
    let (shouldDeallocNow, edit) ← edit.dealloc chunkId
    if shouldDeallocNow then
      let state ← state.dealloc chunkId
      pure (state, edit)
    else pure (state, edit)

def deallocBatch (state : ChunkAllocState) (edit : ChunkAllocEdit) (chunkIds : List ChunkId) :
    Res (ChunkAllocState × ChunkAllocEdit) :=
  chunkIds.foldlM dealloc (state, edit)

/-- The abort handler. -/
def onAbort (state : ChunkAllocState) (edit : ChunkAllocEdit) : Res ChunkAllocState :=
  state.deallocAll edit.iterAllocatedChunks

end ChunkAlloc

end OmegaOsx.MlsDisk
