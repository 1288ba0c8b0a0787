import OmegaOsx.Ext2.BlockGroups

/-!
# The range `alloc_blocks` returns

The groups are tried in turn from the given one. The first group with a free block gives the start of the
range (`FirstGroup`). If that part reaches the end of its group, the next group may go on with it, and the
one after it if all of the next group is taken (`Follows`).

The source subtracts what the following groups give from the request, but not what the first one gave. The
range is longer than requested exactly in the states `Overruns` describes; everything else the allocation
promises holds for every request that does not exceed the number of free blocks.
-/

set_option linter.dupNamespace false

namespace OmegaOsx.Ext2

open BitRange GroupMetadata Nat
open MlsDisk (ok_bind)

namespace Ext2

def bitmap (fs : Ext2) (idx : Nat) : IdAlloc := (fs.blockGroups idx).blockBitmap

/-- The group the search starts with. -/
def startGroup (fs : Ext2) (idx : Nat) : Nat := if fs.numGroups ≤ idx then 0 else idx

/-- The first group with a free block, from the given one on. -/
structure FirstGroup (fs : Ext2) (idx k h : Nat) : Prop where
  lt : k < fs.numGroups
  eq : h = (fs.startGroup idx + k) % fs.numGroups
  free : 0 < (fs.bitmap h).numFree
  first : ∀ j < k, (fs.bitmap ((fs.startGroup idx + j) % fs.numGroups)).numFree = 0

/-- The blocks that groups from `idx` on add to a range that reaches up to `idx`. -/
inductive Follows (fs : Ext2) : Nat → Nat → Nat → Prop
  | stop {idx count : Nat} (none : idx < fs.numGroups → ∀ len,
    ¬ Serves (fs.bitmap idx) count len 0) : Follows fs idx count 0
  | part {idx count len : Nat} (lt : idx < fs.numGroups) (serves : Serves (fs.bitmap idx) count len 0)
      (short : len ≠ fs.blocksPerGroup) : Follows fs idx count len
  | whole {idx count more : Nat} (lt : idx < fs.numGroups) (serves : Serves (fs.bitmap idx) count fs.blocksPerGroup 0)
      (next : Follows fs (idx + 1) (count - fs.blocksPerGroup) more) : Follows fs idx count (fs.blocksPerGroup + more)

/-- The states and requests for which the range is longer than requested. -/
def Overruns (fs : Ext2) (idx count : Nat) : Prop :=
  ∃ k h len start more, FirstGroup fs idx k h ∧ Serves (fs.bitmap h) count len start ∧
    start + len = fs.blocksPerGroup ∧ Follows fs (h + 1) count more ∧ count < len + more

variable {fs fs' : Ext2} {idx count len start stop more : Nat} {g g' : GroupMetadata}

theorem Follows.unique {more' : Nat} (h : Follows fs idx count more)
    (h' : Follows fs idx count more') : more = more' := by
  induction h generalizing more' with
  | stop none =>
    cases h' with
    | stop => rfl
    | part lt serves => exact absurd serves (none lt _)
    | whole lt serves => exact absurd serves (none lt _)
  | part lt serves short =>
    cases h' with
    | stop none => exact absurd serves (none lt _)
    | part _ serves' => exact (serves.unique serves').1
    | whole _ serves' => exact absurd (serves.unique serves').1 short
  | whole lt serves _ ih =>
    cases h' with
    | stop none => exact absurd serves (none lt _)
    | part _ serves' short => exact absurd (serves'.unique serves).1 short
    | whole _ _ next => rw [ih next]

/-- Only the groups from `idx` on matter. -/
theorem Follows.congr (h : Follows fs idx count more) (numGroups : fs'.numGroups = fs.numGroups)
    (size : fs'.blocksPerGroup = fs.blocksPerGroup) (same : ∀ j, idx ≤ j → fs'.bitmap j = fs.bitmap j) :
    Follows fs' idx count more := by
  induction h with
  | stop none =>
    refine .stop fun lt len => ?_
    rw [same _ le_rfl]
    exact none (numGroups ▸ lt) len
  | part lt serves short =>
    refine .part (numGroups ▸ lt) ?_ (size ▸ short)
    rw [same _ le_rfl]
    exact serves
  | whole lt serves _ ih =>
    rw [← size] at serves ih ⊢
    refine .whole (numGroups ▸ lt) ?_ (ih fun j le => same j (by omega))
    rw [same _ le_rfl]
    exact serves

variable {k fuel j part : Nat}

theorem FirstGroup.unique {k' h h' : Nat} (first : FirstGroup fs idx k h) (first' : FirstGroup fs idx k' h') :
    h = h' := by
  rcases lt_trichotomy k k' with lt | rfl | gt
  · have := first'.first k lt
    rw [← first.eq] at this
    exact absurd first.free (by omega)
  · exact first.eq.trans first'.eq.symm
  · have := first.first k' gt
    rw [← first'.eq] at this
    exact absurd first'.free (by omega)

/-! ### Taking blocks -/

/-- Blocks that were free are taken from the groups; the superblock does not know yet. -/
structure Taken (fs : Ext2) (start stop : Nat) (fs' : Ext2) : Prop extends Changed true fs start stop fs' where
  le : start ≤ stop
  free : ∀ bid, start ≤ bid → bid < stop → fs.HasBlock bid ∧ fs.used bid = false
  count : fs'.freeInGroups + (stop - start) = fs.freeInGroups
  superblock : fs'.freeBlocksCount = fs.freeBlocksCount

theorem Taken.refl (h : fs.Groups) (start : Nat) : Taken fs start start fs :=
  ⟨.refl h le_rfl, le_rfl, fun bid le lt => by omega, by omega, rfl⟩

theorem Taken.append {mid : Nat} {fs'' : Ext2} (h : Taken fs start mid fs') (h' : Taken fs' mid stop fs'') :
    Taken fs start stop fs'' := by
  have le := h.le
  have le' := h'.le
  refine ⟨h.toChanged.append h'.toChanged le le', by omega, fun bid low high => ?_, ?_,
    h'.superblock.trans h.superblock⟩
  · by_cases early : bid < mid
    · exact h.free bid low early
    · obtain ⟨there, free⟩ := h'.free bid (by omega) high
      rw [h.used, setRange_of_not_mem (by omega)] at free
      exact ⟨(h.alike.hasBlock bid).mp there, free⟩
  · have := h.count
    have := h'.count
    omega

theorem setGroup_taken (h : fs.Groups) (lt : idx < fs.numGroups) (free : (fs.bitmap idx).Free start (start + len))
    (swap : GroupMetadata.Swap true (fs.blockGroups idx) start (start + len) g') :
    Taken fs (idx * fs.blocksPerGroup + start) (idx * fs.blocksPerGroup + start + len) (fs.setGroup idx g') := by
  have within : start + len ≤ fs.blocksPerGroup := le_trans free.within (h.le idx lt)
  have changed := setGroup_changed h lt swap free.within
  rw [← add_assoc] at changed
  refine ⟨changed, le_add_right _ _, fun bid low high => ?_, ?_, rfl⟩
  · obtain ⟨same, low, high⟩ := (mem_group_iff h.pos within idx start bid).mp (by omega)
    refine ⟨⟨same ▸ lt, ?_⟩, ?_⟩
    · rw [same]
      exact lt_of_lt_of_le high free.within
    · rw [Ext2.used, same]
      exact free.clear _ low high
  · have count := freeInGroups_setGroup fs lt g'
    have fewer : g'.blockBitmap.numFree + (start + len - start) = (fs.bitmap idx).numFree :=
      numFree_set free swap.len swap.bits
    unfold bitmap at fewer
    omega

/-! ### One round -/

/-- What a round does with the range a group gives: it starts the result with it, adds it to the result, or
gives it back and stops. -/
structure Round (fs : Ext2) (idx count : Nat) (fuel h start len : Nat) (g' : GroupMetadata) : Prop where
  serves : Serves (fs.bitmap h) count len start
  swap : GroupMetadata.Swap true (fs.blockGroups h) start (start + len) g'
  starts : allocLoop (fuel + 1) fs idx count none = allocLoop fuel (fs.setGroup h g') (h + 1) count
    (some (h * fs.blocksPerGroup + start, h * fs.blocksPerGroup + start + len))
  adds : ∀ first, allocLoop (fuel + 1) fs idx count (some (first, h * fs.blocksPerGroup + start)) =
    allocLoop fuel (fs.setGroup h g') (h + 1) (count - len) (some (first, h * fs.blocksPerGroup + start + len))
  stops : ∀ first last, last ≠ h * fs.blocksPerGroup + start →
    allocLoop (fuel + 1) fs idx count (some (first, last)) = .ok (some (first, last), fs)

theorem mod_of_le (le : idx ≤ fs.numGroups) : (if fs.numGroups ≤ idx then 0 else idx) = idx % fs.numGroups := by
  split
  · obtain rfl : idx = fs.numGroups := by omega
    exact (mod_self _).symm
  · exact (mod_eq_of_lt (by omega)).symm

theorem allocLoop_round (h : fs.Groups) (fuel : Nat) (some : 0 < fs.numGroups)
    (le : idx ≤ fs.numGroups) (pos : 0 < count) :
    ((fs.bitmap (idx % fs.numGroups)).numFree = 0 ∧ ∀ allocated, allocLoop (fuel + 1) fs idx count allocated =
      allocLoop fuel fs (idx % fs.numGroups + 1) count allocated) ∨
    ∃ start len g', Round fs idx count fuel (idx % fs.numGroups) start len g' := by
  have lt := mod_lt idx some
  rcases allocBlocks_ok (h.group _ lt) pos with ⟨result, none⟩ | ⟨start, len, g', result, serves, swap⟩
  · refine .inl ⟨none, fun allocated => ?_⟩
    rw [allocLoop, if_neg (ne_of_gt pos)]
    dsimp only
    rw [mod_of_le le, result]
    rfl
  have size : start + len - start = len := Nat.add_sub_cancel_left _ _
  refine .inr ⟨start, len, g', serves, swap, ?_, fun first => ?_, fun first last ne => ?_⟩
  all_goals
    rw [allocLoop, if_neg (ne_of_gt pos)]
    dsimp only
    rw [mod_of_le le, result, ok_bind]
    dsimp only
  · rw [size]
  · rw [if_pos rfl, size]
  · rw [if_neg ne, swap.undo (h.group _ lt) serves.fit.free (Nat.lt_add_of_pos_right serves.pos),
      ok_bind, setGroup_same]
    rfl

/-! ### The following groups -/

theorem next_mod (k : Nat) : (idx % fs.numGroups + 1 + k) % fs.numGroups = (idx + (k + 1)) % fs.numGroups := by
  rw [add_assoc, mod_add_mod, add_comm 1 k]

/-- No group that is left to try has a block at the end of the result. -/
theorem allocLoop_apart (h : fs.Groups) (le : idx ≤ fs.numGroups) (some : 0 < fs.numGroups) (count first : Nat)
    {last : Nat} (apart : ∀ k < fuel, ∀ s < fs.blocksPerGroup,
    last ≠ (idx + k) % fs.numGroups * fs.blocksPerGroup + s) :
    allocLoop fuel fs idx count (.some (first, last)) = .ok (.some (first, last), fs) := by
  induction fuel generalizing idx with
  | zero => rfl
  | succ fuel ih =>
    by_cases done : count = 0
    · rw [allocLoop, if_pos done]
    rcases allocLoop_round h fuel some le (by omega : 0 < count) with ⟨-, skip⟩ | ⟨start, len, g', round⟩
    · rw [skip]
      refine ih (mod_lt idx some) fun k lt s inside => ?_
      rw [next_mod]
      exact apart (k + 1) (by omega) s inside
    · have lt := mod_lt idx some
      have within := le_trans round.serves.fit.free.within (h.le _ lt)
      have pos := round.serves.pos
      exact round.stops first last (apart 0 (by omega) start (by omega))

theorem mod_ne_of_lt (lt : idx < fs.numGroups) (short : k + 1 < fs.numGroups) :
    (idx + (k + 1)) % fs.numGroups ≠ idx := by
  intro eq
  by_cases wrap : idx + (k + 1) < fs.numGroups
  · rw [mod_eq_of_lt wrap] at eq
    omega
  · rw [mod_eq_sub_mod (by omega), mod_eq_of_lt (by omega)] at eq
    omega

/-- A block at the end of a result that ends in group `idx`, or right after it, is not in another group. -/
theorem apart_of_ne {s : Nat} (pos : 0 < fs.blocksPerGroup) (inside : s < fs.blocksPerGroup)
    (within : part < fs.blocksPerGroup)
    (eq : idx * fs.blocksPerGroup + part = j * fs.blocksPerGroup + s) : j = idx := by
  have left := (mem_group_iff pos le_rfl idx 0 (idx * fs.blocksPerGroup + part)).mp (by omega)
  have right := (mem_group_iff pos le_rfl j 0 (idx * fs.blocksPerGroup + part)).mp (by omega)
  exact right.1.symm.trans left.1

/-- No group after `idx` adds to a result that ends within `idx`. -/
theorem allocLoop_after (h : fs.Groups) (lt : idx < fs.numGroups) (short : fuel < fs.numGroups)
    (count first : Nat) (within : part < fs.blocksPerGroup) :
    allocLoop fuel fs (idx + 1) count (some (first, idx * fs.blocksPerGroup + part)) =
      .ok (some (first, idx * fs.blocksPerGroup + part), fs) := by
  have le : idx + 1 ≤ fs.numGroups := lt
  refine allocLoop_apart h le (by omega) count first fun k below s inside eq => ?_
  rw [add_assoc, add_comm 1 k] at eq
  exact mod_ne_of_lt lt (by omega) (apart_of_ne h.pos inside within eq)

theorem bitmap_setGroup_of_ne (ne : j ≠ idx) : (fs.setGroup idx g').bitmap j = fs.bitmap j :=
  congrArg blockBitmap (Function.update_of_ne ne _ _)

/-- The groups after the first one add to the result what `Follows` says. -/
theorem allocLoop_follows (h : fs.Groups) (le : idx ≤ fs.numGroups) (some : 0 < fs.numGroups)
    (short : fuel ≤ fs.numGroups) (count first : Nat)
    (rest : ∀ j, idx ≤ j → j < fs.numGroups → j < idx + fuel ∨ (fs.bitmap j).numFree = 0) :
    ∃ more fs', Follows fs idx count more ∧
      Taken fs (idx * fs.blocksPerGroup) (idx * fs.blocksPerGroup + more) fs' ∧
      allocLoop fuel fs idx count (.some (first, idx * fs.blocksPerGroup)) =
        .ok (.some (first, idx * fs.blocksPerGroup + more), fs') := by
  induction fuel generalizing fs idx count with
  | zero =>
    refine ⟨0, fs, .stop fun lt len serves => ?_, .refl h _, rfl⟩
    have := serves.numFree_pos
    rcases rest idx le_rfl lt with late | none
    · omega
    · omega
  | succ fuel ih =>
    rcases lt_or_eq_of_le le with lt | rfl
    · by_cases done : count = 0
      · refine ⟨0, fs, .stop fun _ len serves => ?_, .refl h _, ?_⟩
        · have := serves.le
          have := serves.pos
          omega
        · rw [allocLoop, if_pos done, add_zero]
      have here : idx % fs.numGroups = idx := mod_eq_of_lt lt
      rcases allocLoop_round h fuel some le (by omega : 0 < count) with ⟨none, skip⟩ | ⟨start, len, g', round⟩
      · rw [here] at none skip
        refine ⟨0, fs, .stop fun _ len serves => ?_, .refl h _, ?_⟩
        · have := serves.numFree_pos
          omega
        · rw [skip]
          exact allocLoop_after h lt short count first h.pos
      rw [here] at round
      by_cases zero : start = 0
      · subst zero
        have taken := setGroup_taken h lt round.serves.fit.free round.swap
        have adds := round.adds first
        simp only [add_zero] at taken adds
        by_cases all : len = fs.blocksPerGroup
        · -- All of the group is taken, so that the next one may go on.
          subst all
          have there : (idx + 1) * (fs.setGroup idx g').blocksPerGroup = idx * fs.blocksPerGroup + fs.blocksPerGroup :=
            succ_mul idx fs.blocksPerGroup
          have left : ∀ j, idx + 1 ≤ j → j < (fs.setGroup idx g').numGroups →
              j < idx + 1 + fuel ∨ ((fs.setGroup idx g').bitmap j).numFree = 0 := by
            intro j low high
            rw [bitmap_setGroup_of_ne (by omega)]
            rcases rest j (by omega) high with near | none
            · exact .inl (by omega)
            · exact .inr none
          obtain ⟨more, fs', follows, taken', result⟩ := ih taken.groups lt some (le_of_lt short)
            (count - fs.blocksPerGroup) left
          rw [there] at taken' result
          refine ⟨fs.blocksPerGroup + more, fs', .whole lt round.serves ?_, ?_, ?_⟩
          · exact follows.congr rfl rfl fun j low => (bitmap_setGroup_of_ne (by omega)).symm
          · rw [← add_assoc]
            exact taken.append taken'
          · rw [adds, result, add_assoc]
        · have within : 0 + len ≤ fs.blocksPerGroup := le_trans round.serves.fit.free.within (h.le idx lt)
          refine ⟨len, _, .part lt round.serves all, taken, ?_⟩
          rw [adds]
          exact allocLoop_after taken.groups lt short _ first (lt_of_le_of_ne (zero_add len ▸ within) all)
      · refine ⟨0, fs, .stop fun _ len' serves => zero (round.serves.unique serves).2, .refl h _, ?_⟩
        exact round.stops first _ (by omega)
    · refine ⟨0, fs, .stop fun lt => absurd lt (lt_irrefl _), .refl h _, ?_⟩
      refine allocLoop_apart h le some count first fun k _ s inside eq => ?_
      have lt := mod_lt (fs.numGroups + k) some
      have := apart_of_ne h.pos inside h.pos eq
      omega

/-! ### The first group -/

/-- Groups without a free block are passed over. -/
theorem allocLoop_skip (fuel : Nat) (h : fs.Groups) (some : 0 < fs.numGroups)
    (le : idx ≤ fs.numGroups) (pos : 0 < count)
    (full : ∀ j < k, (fs.bitmap ((idx + j) % fs.numGroups)).numFree = 0) :
    ∃ idx', idx' ≤ fs.numGroups ∧ idx' % fs.numGroups = (idx + k) % fs.numGroups ∧
      allocLoop (k + fuel) fs idx count none = allocLoop fuel fs idx' count none := by
  induction k generalizing idx with
  | zero => exact ⟨idx, le, rfl, by rw [zero_add]⟩
  | succ k ih =>
    rw [add_right_comm]
    rcases allocLoop_round h (k + fuel) some le pos with ⟨-, skip⟩ | ⟨start, len, g', round⟩
    · rw [skip]
      have le' : idx % fs.numGroups + 1 ≤ fs.numGroups := mod_lt idx some
      obtain ⟨idx', le', mod, eq⟩ := ih le' fun j lt => by
        rw [next_mod]
        exact full (j + 1) (by omega)
      exact ⟨idx', le', by rw [mod, next_mod], eq⟩
    · have := round.serves.numFree_pos
      have := full 0 (by omega)
      rw [add_zero] at this
      omega

theorem startGroup_lt (some : 0 < fs.numGroups) (idx : Nat) : fs.startGroup idx < fs.numGroups := by
  unfold startGroup
  split
  · exact some
  · omega

theorem allocLoop_startGroup (fuel : Nat) (idx count : Nat) (allocated : Option (Nat × Nat)) :
    allocLoop fuel fs idx count allocated = allocLoop fuel fs (fs.startGroup idx) count allocated := by
  cases fuel with
  | zero => rfl
  | succ fuel =>
    have same : (if fs.numGroups ≤ fs.startGroup idx then 0 else fs.startGroup idx) =
        if fs.numGroups ≤ idx then 0 else idx := by
      unfold startGroup
      split
      · split
        · rfl
        · rfl
      · rfl
    rw [allocLoop, allocLoop, same]

/-- A group with free blocks is found if there is one. -/
theorem exists_firstGroup (some : 0 < fs.freeInGroups) (idx : Nat) : ∃ k h, FirstGroup fs idx k h := by
  obtain ⟨j, mem, free⟩ := Finset.exists_ne_zero_of_sum_ne_zero (ne_of_gt some)
  have lt := Finset.mem_range.mp mem
  have start := startGroup_lt (by omega : 0 < fs.numGroups) idx
  have reached : ∃ k, k < fs.numGroups ∧ 0 < (fs.bitmap ((fs.startGroup idx + k) % fs.numGroups)).numFree := by
    refine ⟨if fs.startGroup idx ≤ j then j - fs.startGroup idx else j + fs.numGroups - fs.startGroup idx, ?_, ?_⟩
    · split
      · omega
      · omega
    have same : (fs.startGroup idx + if fs.startGroup idx ≤ j then j - fs.startGroup idx
        else j + fs.numGroups - fs.startGroup idx) % fs.numGroups = j := by
      split
      · rw [Nat.add_sub_cancel' (by omega), mod_eq_of_lt lt]
      · rw [Nat.add_sub_cancel' (by omega), add_mod_right, mod_eq_of_lt lt]
    rw [same]
    exact pos_of_ne_zero free
  have least := Nat.find_spec reached
  refine ⟨Nat.find reached, _, least.1, rfl, least.2, fun i below => ?_⟩
  have := Nat.find_min reached below
  omega

/-- The loop takes a part of the first group with free blocks and, if that part ends the group, what follows. -/
theorem allocLoop_ok (h : fs.Groups) (pos : 0 < count) {hit : Nat} (first : FirstGroup fs idx k hit) :
    ∃ len start more fs', Serves (fs.bitmap hit) count len start ∧
      (start + len = fs.blocksPerGroup → Follows fs (hit + 1) count more) ∧
      (start + len ≠ fs.blocksPerGroup → more = 0) ∧
      Taken fs (hit * fs.blocksPerGroup + start) (hit * fs.blocksPerGroup + start + (len + more)) fs' ∧
      allocLoop fs.numGroups fs idx count none =
        .ok (some (hit * fs.blocksPerGroup + start, hit * fs.blocksPerGroup + start + (len + more)), fs') := by
  obtain ⟨below, eq, free, before⟩ := first
  have groups : 0 < fs.numGroups := by omega
  have start := startGroup_lt groups idx
  obtain ⟨fuel, size⟩ : ∃ fuel, fs.numGroups = k + (fuel + 1) := ⟨fs.numGroups - k - 1, by omega⟩
  obtain ⟨idx', le', mod, skip⟩ := allocLoop_skip (fuel + 1) h groups (le_of_lt start) pos before
  rw [← eq] at mod
  have lt : hit < fs.numGroups := mod ▸ mod_lt idx' groups
  have result : allocLoop fs.numGroups fs idx count none = allocLoop (fuel + 1) fs idx' count none := by
    rw [allocLoop_startGroup, ← skip, ← size]
  rw [result]
  rcases allocLoop_round h fuel groups le' pos with ⟨none, -⟩ | ⟨start', len, g', round⟩
  · rw [mod] at none
    omega
  rw [mod] at round
  have within : start' + len ≤ fs.blocksPerGroup := le_trans round.serves.fit.free.within (h.le hit lt)
  have taken := setGroup_taken h lt round.serves.fit.free round.swap
  by_cases reaches : start' + len = fs.blocksPerGroup
  · have last : hit * fs.blocksPerGroup + start' + len = (hit + 1) * (fs.setGroup hit g').blocksPerGroup := by
      rw [add_assoc, reaches]
      exact (succ_mul hit fs.blocksPerGroup).symm
    have left : ∀ j, hit + 1 ≤ j → j < (fs.setGroup hit g').numGroups →
        j < hit + 1 + fuel ∨ ((fs.setGroup hit g').bitmap j).numFree = 0 := by
      intro j low high
      have high : j < fs.numGroups := high
      rw [bitmap_setGroup_of_ne (by omega)]
      by_cases near : j < hit + 1 + fuel
      · exact .inl near
      · -- The search has wrapped around, and `j` was passed over before.
        refine .inr ?_
        have wrapped : fs.numGroups ≤ fs.startGroup idx + k := by
          refine Nat.le_of_not_lt fun straight => ?_
          rw [mod_eq_of_lt straight] at eq
          omega
        rw [mod_eq_sub_mod wrapped, mod_eq_of_lt (by omega)] at eq
        have passed := before (j - fs.startGroup idx) (by omega)
        rwa [Nat.add_sub_cancel' (by omega), mod_eq_of_lt high] at passed
    obtain ⟨more, fs', follows, taken', rest⟩ := allocLoop_follows taken.groups lt groups
      (show fuel ≤ fs.numGroups by omega) count (hit * fs.blocksPerGroup + start') left
    rw [← last] at taken' rest
    refine ⟨len, start', more, fs', round.serves, fun _ => ?_, fun ne => absurd reaches ne, ?_, ?_⟩
    · exact follows.congr rfl rfl fun j low => (bitmap_setGroup_of_ne (by omega)).symm
    · rw [← add_assoc]
      exact taken.append taken'
    · rw [round.starts, rest, add_assoc _ len]
  · refine ⟨len, start', 0, _, round.serves, fun eq => absurd eq reaches, fun _ => rfl, taken, ?_⟩
    rw [round.starts]
    simp only [add_zero]
    rw [add_assoc]
    exact allocLoop_after taken.groups lt (show fuel < fs.numGroups by omega) count _ (lt_of_le_of_ne within reaches)

/-! ### Calls of `alloc_blocks` and `free_blocks` -/

/-- A contiguous range is taken: its blocks were free and are in use, nothing else has changed, and freeing
the range undoes it. -/
structure Allocates (fs : Ext2) (start stop : Nat) (fs' : Ext2) : Prop extends Changed true fs start stop fs' where
  lt : start < stop
  free : ∀ bid, start ≤ bid → bid < stop → fs.HasBlock bid ∧ fs.used bid = false
  count : fs'.freeBlocksCount + (stop - start) = fs.freeBlocksCount
  wf : fs'.WF
  undo : fs'.freeBlocks start stop = .ok (.ok (), fs)

theorem Changed.undo (h : fs.WF) (h' : fs'.WF) (changed : Changed true fs start stop fs') (le : start ≤ stop)
    (free : ∀ bid, start ≤ bid → bid < stop → fs.HasBlock bid ∧ fs.used bid = false) :
    fs'.freeBlocks start stop = .ok (.ok (), fs) := by
  have inUse : fs'.InUse start stop := fun bid low high => by
    refine ⟨(changed.alike.hasBlock bid).mpr (free bid low high).1, ?_⟩
    rw [changed.used, setRange_of_mem ⟨low, high⟩]
  obtain ⟨back, eq⟩ := freeLoop_ok h' le_rfl inUse
  obtain ⟨mid, low, high, -, freed, wf, ends⟩ := freeLoop_inv h' le_rfl eq
  obtain rfl : mid = stop := by
    rcases ends rfl with same | empty
    · exact same
    · omega
  have used : back.used = fs.used := by
    rw [freed.used, changed.used]
    exact setRange_undo (fun bid low high => (free bid low high).2) true
  rw [freeBlocks, eq, h.eq wf (changed.alike.trans freed.alike) used]

theorem Taken.allocates {mid : Ext2} (h : fs.WF) (taken : Taken fs start stop mid) (lt : start < stop) :
    ∃ fs', mid.decFreeBlocks (some (start, stop)) = .ok fs' ∧ Allocates fs start stop fs' := by
  have count := taken.count
  have total := h.count
  have same := taken.superblock
  have changed : Changed true fs start stop { mid with freeBlocksCount := mid.freeBlocksCount - (stop - start) } := by
    obtain ⟨⟨g1, g2, g3, g4, g5⟩, ⟨a1, a2, a3, a4, a5, a6, a7, a8, a9⟩, used⟩ := taken.toChanged
    exact ⟨⟨g1, g2, g3, g4, g5⟩, ⟨a1, a2, a3, a4, a5, a6, a7, a8, a9⟩, used⟩
  have wf : WF { mid with freeBlocksCount := mid.freeBlocksCount - (stop - start) } := by
    refine ⟨changed.groups, ?_⟩
    change mid.freeBlocksCount - (stop - start) = mid.freeInGroups
    omega
  refine ⟨_, if_neg (by omega), changed, lt, taken.free, ?_, wf, changed.undo h wf (le_of_lt lt) taken.free⟩
  dsimp only
  omega

/-- `alloc_blocks` takes a range if as many blocks are free as requested. -/
theorem allocBlocks_ok (h : fs.WF) (pos : 0 < count) (le : count ≤ fs.freeBlocksCount) (idx : Nat) :
    ∃ start stop fs', fs.allocBlocks idx count = .ok (some (start, stop), fs') ∧ Allocates fs start stop fs' ∧
      (stop - start ≤ count ↔ ¬ Overruns fs idx count) := by
  have some : 0 < fs.freeInGroups := by
    have := h.count
    omega
  obtain ⟨k, hit, first⟩ := exists_firstGroup some idx
  obtain ⟨len, start, more, mid, serves, follows, ends, taken, result⟩ := allocLoop_ok h.toGroups pos first
  have pos' := serves.pos
  obtain ⟨fs', dec, allocates⟩ := taken.allocates h (by omega)
  refine ⟨_, _, fs', ?_, allocates, ?_⟩
  · unfold allocBlocks
    rw [if_neg (not_lt.mpr le), result, ok_bind]
    dsimp only
    rw [dec]
    rfl
  rw [Nat.add_sub_cancel_left]
  constructor
  · rintro short ⟨k', hit', len', start', more', first', serves', reaches, follows', exceeds⟩
    obtain rfl := first.unique first'
    obtain ⟨rfl, rfl⟩ := serves.unique serves'
    obtain rfl := (follows reaches).unique follows'
    omega
  · intro short
    by_cases reaches : start + len = fs.blocksPerGroup
    · exact Nat.le_of_not_lt fun exceeds => short
        ⟨k, hit, len, start, more, first, serves, reaches, follows reaches, exceeds⟩
    · rw [ends reaches]
      exact serves.le

inductive Call
  | allocBlocks (blockGroupIdx count : Nat)
  | freeBlocks (start stop : Nat)

/-- A call that returns, also with an error. -/
inductive Step : Ext2 → Call → Ext2 → Prop
  | allocBlocks {fs fs' : Ext2} (idx count : Nat) {result : Option (Nat × Nat)}
      (returns : fs.allocBlocks idx count = .ok (result, fs')) : Step fs (.allocBlocks idx count) fs'
  | freeBlocks {fs fs' : Ext2} {start stop : Nat} {result : Except Errno Unit}
      (returns : fs.freeBlocks start stop = .ok (result, fs')) : Step fs (.freeBlocks start stop) fs'

theorem allocBlocks_none (less : fs.freeBlocksCount < count) (idx : Nat) : fs.allocBlocks idx count = .ok (none, fs) :=
  if_pos less

theorem allocBlocks_zero (fs : Ext2) (idx : Nat) : fs.allocBlocks idx 0 = .ok (none, fs) := by
  unfold allocBlocks
  cases eq : fs.numGroups with
  | zero => rfl
  | succ n => rfl

theorem Step.wf {call : Call} (h : fs.WF) (step : Step fs call fs') : fs'.WF := by
  cases step with
  | allocBlocks idx count returns =>
    rcases lt_or_ge fs.freeBlocksCount count with less | le
    · cases (allocBlocks_none less idx).symm.trans returns
      exact h
    rcases Nat.eq_zero_or_pos count with rfl | pos
    · cases (allocBlocks_zero fs idx).symm.trans returns
      exact h
    obtain ⟨start, stop, fs'', eq, allocates, -⟩ := allocBlocks_ok h pos le idx
    cases eq.symm.trans returns
    exact allocates.wf
  | freeBlocks returns =>
    obtain ⟨-, -, -, -, -, wf, -⟩ := freeLoop_inv h le_rfl returns
    exact wf

/-- In every state the calls lead to, the counters are those of the bitmaps, and an allocation takes a
contiguous range of free blocks, at most as many as requested exactly if it does not overrun. -/
theorem allocBlocks_returns_range {fs0 : Ext2} {calls : List Call} (init : fs0.WF)
    (run : Labelled.Run Step fs0 calls fs) :
    fs.WF ∧ ∀ idx count, 0 < count →
      ((∃ start stop fs', fs.allocBlocks idx count = .ok (some (start, stop), fs') ∧ Allocates fs start stop fs' ∧
          stop - start ≤ count) ↔ count ≤ fs.freeBlocksCount ∧ ¬ Overruns fs idx count) ∧
        (count ≤ fs.freeBlocksCount →
          ∃ start stop fs', fs.allocBlocks idx count = .ok (some (start, stop), fs') ∧
            Allocates fs start stop fs') ∧
        (fs.freeBlocksCount < count → fs.allocBlocks idx count = .ok (none, fs)) := by
  have wf : fs.WF := run.invariant (fun _ _ _ h step => step.wf h) init
  refine ⟨wf, fun idx count pos => ⟨?_, fun le => ?_, fun less => allocBlocks_none less idx⟩⟩
  · constructor
    · rintro ⟨start, stop, fs', returns, -, short⟩
      have le : count ≤ fs.freeBlocksCount := Nat.le_of_not_lt fun less => by
        cases (allocBlocks_none less idx).symm.trans returns
      obtain ⟨start', stop', fs'', eq, -, bound⟩ := allocBlocks_ok wf pos le idx
      cases eq.symm.trans returns
      exact ⟨le, bound.mp short⟩
    · rintro ⟨le, short⟩
      obtain ⟨start, stop, fs', eq, allocates, bound⟩ := allocBlocks_ok wf pos le idx
      exact ⟨start, stop, fs', eq, allocates, bound.mpr short⟩
  · obtain ⟨start, stop, fs', eq, allocates, -⟩ := allocBlocks_ok wf pos le idx
    exact ⟨start, stop, fs', eq, allocates⟩

/-- Two groups of two blocks, of which the second block and the third are free. -/
def twoGroups : Ext2 where
  blocksPerGroup := 2
  inodesPerGroup := 1
  numGroups := 2
  blockGroups g :=
    { blockBitmap := { len := 2, bits := fun i => decide (i = g), firstAvailableId := if g = 0 then 1 else 0 }
      freeBlocksCount := 1
      inodeBitmap := { len := 1, bits := fun _ => false, firstAvailableId := 0 }
      freeInodesCount := 1
      dirsCount := 0 }
  freeBlocksCount := 2
  freeInodesCount := 2

theorem twoGroups_wf : twoGroups.WF where
  pos := Nat.zero_lt_two
  group := fun g lt => by
    have lt : g < 2 := lt
    refine ⟨⟨?_⟩, ?_, ?_, fun i le => ?_⟩
    · revert lt
      revert g
      decide
    · revert lt
      revert g
      decide
    · exact le_of_ble_eq_true rfl
    · have le : 2 ≤ i := le
      exact decide_eq_false (by omega)
  le := fun _ _ => le_refl 2
  full := fun _ _ => rfl
  total := by decide
  count := by decide

/-- The counters of the two groups are right, and two blocks can be had. -/
theorem allocBlocks_returns_range_twoGroups : twoGroups.WF ∧ ∃ start stop fs',
    twoGroups.allocBlocks 0 2 = .ok (some (start, stop), fs') ∧ Allocates twoGroups start stop fs' := by
  obtain ⟨wf, calls⟩ := allocBlocks_returns_range twoGroups_wf (Labelled.Run.nil twoGroups)
  exact ⟨wf, (calls 0 2 Nat.zero_lt_two).2.1 (le_refl 2)⟩

/-- A request for one block takes the last block of the first group and the first one of the second. -/
theorem allocBlocks_one_takes_two : twoGroups.WF ∧
    (twoGroups.allocBlocks 0 1).toOption.map Prod.fst = some (some (1, 3)) ∧
    ¬ ∃ start stop fs', twoGroups.allocBlocks 0 1 = .ok (some (start, stop), fs') ∧ stop - start ≤ 1 := by
  have range : (twoGroups.allocBlocks 0 1).toOption.map Prod.fst = some (some (1, 3)) := by decide
  refine ⟨twoGroups_wf, range, ?_⟩
  rintro ⟨start, stop, fs', eq, short⟩
  rw [eq] at range
  cases range
  omega

end Ext2

end OmegaOsx.Ext2
