import OmegaOsx.RangeLock.Exclusion

/-!
# The lock list against a map from offsets to types

What the list is for: each owner has a partial map from offsets to lock types, a set overwrites a
range of it and an unlock clears one. `Refines` relates the two, and `WellFormed` is the order the
source documents: an owner's items stand together, sorted, disjoint, and merged where two of one type
touch.

Since `setEnd` leaves the item as it is, a call that has to move the *end* of one of the caller's
items goes wrong: the item goes on holding what the call should have taken from it. `Shortens` says
when a call is of that kind; these are exactly the calls after which the list and the map disagree
(`WellFormed.call`, `WellFormed.not_refines`).
-/

namespace OmegaOsx.RangeLock

open RangeLockItem List

/-- What each owner holds at each offset. -/
abbrev LockMap := Pid → Nat → Option RangeLockType

/-- The request `lock` is made by `owner` and its range contains `off`. -/
def RangeLockItem.Touches (lock : RangeLockItem) (owner : Pid) (off : Nat) : Prop :=
  lock.owner = owner ∧ lock.range.Contains off

instance (lock : RangeLockItem) (owner : Pid) (off : Nat) : Decidable (lock.Touches owner off) :=
  inferInstanceAs (Decidable (_ ∧ _))

variable {type_ : RangeLockType} {off : Nat} {owner : Pid} {it : RangeLockItem}

theorem RangeLockItem.holds_iff_touches : it.Holds owner off type_ ↔ it.type_ = type_ ∧ it.Touches owner off :=
  and_left_comm

namespace LockMap

/-- The caller gets the requested type on the range of the request. -/
def set (m : LockMap) (lock : RangeLockItem) : LockMap := fun owner off =>
  if lock.Touches owner off then some lock.type_ else m owner off

/-- The caller holds nothing any more on the range. -/
def clear (m : LockMap) (lock : RangeLockItem) : LockMap := fun owner off =>
  if lock.Touches owner off then none else m owner off

def call (m : LockMap) : Op → LockMap
  | .trySetLock reqLock => m.set reqLock
  | .unlock lock => m.clear lock

end LockMap

variable (list : List RangeLockItem)

def Refines (m : LockMap) : Prop :=
  ∀ owner off type_, Holds list owner off type_ ↔ m owner off = some type_

/-- An owner's items are in order. -/
def Sorted : Prop :=
  list.Pairwise fun it other => it.owner = other.owner → it.Before other

/-- Between two items of one owner there is no other owner's. -/
def Grouped : Prop :=
  ∀ a b, [a, b, a].Sublist (list.map (·.owner)) → b = a

structure WellFormed (list : List RangeLockItem) : Prop where
  sorted : Sorted list
  grouped : Grouped list

/-- `it` is an item of the caller that starts before `lock` and reaches into it. -/
def ReachesInto (it lock : RangeLockItem) : Prop :=
  it.owner = lock.owner ∧ it.start < lock.start ∧ lock.start < it.stop

/-- The call has to shorten an item of the caller: one of another type for a set, any for an
unlock. -/
def Shortens : Op → Prop
  | .trySetLock reqLock => ∃ it ∈ list, ReachesInto it reqLock ∧ it.type_ ≠ reqLock.type_
  | .unlock lock => ∃ it ∈ list, ReachesInto it lock

instance (it lock : RangeLockItem) : Decidable (ReachesInto it lock) :=
  inferInstanceAs (Decidable (_ ∧ _ ∧ _))

instance (list : List RangeLockItem) (op : Op) : Decidable (Shortens list op) := by
  cases op <;> unfold Shortens <;> infer_instance

/-! ### Order -/

variable {other : RangeLockItem}

theorem RangeLockItem.Before.trans {next : RangeLockItem} (order : it.Before other) (order' : other.Before next) :
    it.Before next := by
  have strict : it.stop < next.start := lt_of_le_of_lt order.1 (lt_of_lt_of_le other.start_lt_stop order'.1)
  exact ⟨le_of_lt strict, fun h => absurd h (ne_of_lt strict)⟩

theorem RangeLockItem.Before.cut (order : it.Before other) (later : other.start < off) (h : off < other.stop) :
    it.Before (other.from_ off h) := by
  have strict : it.stop < off := lt_of_le_of_lt order.1 later
  exact ⟨le_of_lt strict, fun h => absurd h (ne_of_lt strict)⟩

theorem RangeLockItem.Before.joined {next whole : RangeLockItem} (order : it.Before other) (order' : it.Before next)
    (joins : next.Joins other whole) : it.Before whole := by
  unfold RangeLockItem.Before
  rw [joins.start, joins.type_']
  rcases le_total other.start next.start with h | h
  · rw [min_eq_left h]
    exact order
  · rw [min_eq_right h, ← joins.type_]
    exact order'

/-- `it` stands before all items of its owner in the list. -/
def Leads (it : RangeLockItem) (list : List RangeLockItem) : Prop :=
  ∀ other ∈ list, it.owner = other.owner → it.Before other

variable {list : List RangeLockItem}

theorem sorted_cons : Sorted (it :: list) ↔ Leads it list ∧ Sorted list := pairwise_cons

theorem leads_cons : Leads it (other :: list) ↔ (it.owner = other.owner → it.Before other) ∧ Leads it list :=
  forall_mem_cons

theorem Leads.not_holds (leads : Leads it list) (before : off < it.stop) : ¬ Holds list it.owner off type_ := by
  rintro ⟨other, mem, owner, _, lower, _⟩
  have := (leads other mem owner.symm).1
  omega

theorem RangeLockItem.Before.leads (order : it.Before other) (owner : other.owner = it.owner)
    (leads : Leads other list) :
    Leads it list :=
  fun next mem same => order.trans (leads next mem (owner.trans same))

/-! ### Insertion -/

/-- What the insertion loop finds from the caller's first item on: the caller's items in order and
ahead of all others, none of another type reaching into the request. -/
structure Fitting (pre : RangeLockItem) (rest : List RangeLockItem) : Prop where
  sorted : Sorted rest
  together : rest.Pairwise fun it other => other.owner = pre.owner → it.owner = pre.owner
  clean : ∀ it ∈ rest, it.type_ ≠ pre.type_ → ¬ ReachesInto it pre

namespace Fitting

variable {pre next : RangeLockItem} {rest : List RangeLockItem}

section

variable (fit : Fitting pre (next :: rest))

include fit

theorem leads : Leads next rest := (sorted_cons.mp fit.sorted).1

theorem tail : Fitting pre rest where
  sorted := (sorted_cons.mp fit.sorted).2
  together := (pairwise_cons.mp fit.together).2
  clean := fun it mem => fit.clean it (mem_cons_of_mem _ mem)

/-- After a merge the loop goes on with a lock that starts no later than any item to come. -/
theorem joined {whole : RangeLockItem} (joins : next.Joins pre whole) : Fitting whole rest where
  sorted := fit.tail.sorted
  together := by
    rw [joins.owner']
    exact fit.tail.together
  clean := by
    rintro it mem - ⟨owner, early, _⟩
    have same : next.owner = it.owner := by rw [joins.owner, owner, joins.owner']
    have order := (fit.leads it mem same).1
    have := next.start_lt_stop
    rw [joins.start] at early
    omega

/-- Once another owner's item is reached, the caller has no more. -/
theorem leads_of_owner_ne (owner : next.owner ≠ pre.owner) : Leads pre (next :: rest) := by
  rw [leads_cons]
  refine ⟨fun same => absurd same.symm owner, ?_⟩
  intro other mem same
  exact absurd ((pairwise_cons.mp fit.together).1 other mem same.symm) owner

end

end Fitting

variable {rest done : List RangeLockItem} {pre : RangeLockItem}

/-- An item that leads the old list and the request leads the new list. -/
theorem Inserted.leads (inserted : Inserted pre rest done) (first : it.owner = pre.owner → it.Before pre)
    (leads : Leads it rest) : Leads it done := by
  induction inserted with
  | last => exact leads_cons.mpr ⟨first, leads⟩
  | otherOwner | before => exact leads_cons.mpr ⟨first, leads⟩
  | after _ _ _ ih | toRight _ _ _ _ _ ih =>
    obtain ⟨here, later⟩ := leads_cons.mp leads
    exact leads_cons.mpr ⟨here, ih first later⟩
  | merged joins _ ih =>
    obtain ⟨here, later⟩ := leads_cons.mp leads
    refine ih (fun same => ?_) later
    have same := same.trans joins.owner'
    exact (first same).joined (here (same.trans joins.owner.symm)) joins
  | toLeft owner _ _ overlap right =>
    obtain ⟨here, later⟩ := leads_cons.mp leads
    exact leads_cons.mpr ⟨first, leads_cons.mpr ⟨fun same => (here same).cut overlap right, later⟩⟩
  | @inMiddle pre next rest owner _ left right =>
    obtain ⟨here, later⟩ := leads_cons.mp leads
    have overlap := lt_trans left pre.start_lt_stop
    exact leads_cons.mpr ⟨here, leads_cons.mpr
      ⟨first, leads_cons.mpr ⟨fun same => (here same).cut overlap right, later⟩⟩⟩
  | includes _ _ _ _ _ ih => exact ih first (leads_cons.mp leads).2

variable {lock : RangeLockItem}

/-- An item that the request includes lies in the request. -/
theorem RangeLockItem.Holds.touches (held : it.Holds owner off type_) (same : it.owner = lock.owner)
    (left : lock.start ≤ it.start) (right : it.stop ≤ lock.stop) : lock.Touches owner off :=
  ⟨same.symm.trans held.1, le_trans left held.2.2.1, lt_of_lt_of_le held.2.2.2 right⟩

/-- Cutting an item where the request ends takes exactly the request from it, when the request starts
no later than the item. -/
theorem RangeLockItem.holds_from_iff (same : it.owner = lock.owner) (left : lock.start ≤ it.start)
    (overlap : it.start < lock.stop) {right : lock.stop < it.stop} :
    (it.from_ lock.stop right).Holds owner off type_ ↔
      ¬ lock.Touches owner off ∧ it.Holds owner off type_ := by
  constructor
  · rintro ⟨who, what, lower, upper⟩
    exact ⟨fun inside => Nat.not_le_of_lt inside.2.2 lower, who, what, le_trans (le_of_lt overlap) lower, upper⟩
  · rintro ⟨outside, who, what, lower, upper⟩
    refine ⟨who, what, Nat.le_of_not_lt fun inside => outside ?_, upper⟩
    exact ⟨same.symm.trans who, le_trans left lower, inside⟩

/-- The rest of the list starts behind an item that the request ends in. -/
theorem Leads.apart (leads : Leads it list) (same : it.owner = lock.owner) (right : lock.stop < it.stop) :
    Holds list owner off type_ → ¬ lock.Touches owner off := by
  rintro held ⟨rfl, inside⟩
  rw [← same] at held
  exact leads.not_holds (lt_trans inside.2 right) held

/-- Where the request leads the rest of the list, none of it is overwritten. -/
theorem Leads.holds_iff (leads : Leads pre rest) : Holds (pre :: rest) owner off type_ ↔
      pre.Holds owner off type_ ∨ ¬ pre.Touches owner off ∧ Holds rest owner off type_ := by
  rw [holds_cons]
  refine or_congr_right ⟨fun held => ⟨?_, held⟩, And.right⟩
  rintro ⟨rfl, inside⟩
  exact leads.not_holds inside.2 held

/-- What a set leaves of the list from the caller's first item on. -/
structure Overwritten (pre : RangeLockItem) (rest done : List RangeLockItem) : Prop where
  sorted : Sorted done
  /-- The owners, read along the list, are those of before with the caller put in front. -/
  owners : (done.map (·.owner)).Sublist (pre.owner :: rest.map (·.owner))
  /-- The caller gets the request's type on its range and keeps what it held elsewhere. -/
  holds : ∀ owner off type_, Holds done owner off type_ ↔
    pre.Holds owner off type_ ∨ ¬ pre.Touches owner off ∧ Holds rest owner off type_

theorem Leads.overwritten (leads : Leads pre rest) (sorted : Sorted rest) : Overwritten pre rest (pre :: rest) :=
  ⟨sorted_cons.mpr ⟨leads, sorted⟩, .refl _, fun _ _ _ => leads.holds_iff⟩

theorem Inserted.overwritten (inserted : Inserted pre rest done) (fit : Fitting pre rest) :
    Overwritten pre rest done := by
  induction inserted with
  | last => exact Leads.overwritten (forall_mem_nil _) .nil
  | otherOwner ne => exact (fit.leads_of_owner_ne ne).overwritten fit.sorted
  | before same order => exact (leads_cons.mpr ⟨fun _ => order, order.leads same fit.leads⟩).overwritten fit.sorted
  | @after pre next rest done same order more ih =>
    obtain ⟨sorted, owners, holds⟩ := ih fit.tail
    refine ⟨sorted_cons.mpr ⟨more.leads (fun _ => order) fit.leads, sorted⟩, ?_, fun owner off type_ => ?_⟩
    · rw [map_cons, map_cons, same]
      exact owners.cons_cons _
    · have apart : next.Holds owner off type_ → ¬ pre.Touches owner off :=
        fun held inside => Nat.not_le_of_lt held.2.2.2 (le_trans order.1 inside.2.1)
      rw [holds_cons, holds_cons, holds, and_or_left, and_iff_right_of_imp apart, or_left_comm]
  | @merged pre next whole rest done joins _ ih =>
    obtain ⟨sorted, owners, holds⟩ := ih (fit.joined joins)
    rw [joins.owner', ← joins.owner] at owners
    refine ⟨sorted, owners.cons _, fun owner off type_ => ?_⟩
    have touches : whole.Touches owner off ↔ pre.Touches owner off ∨ next.Touches owner off := by
      have held : whole.Holds owner off pre.type_ ↔
          pre.Holds owner off pre.type_ ∨ next.Holds owner off pre.type_ := joins.holds
      simpa only [holds_iff_touches, joins.type_, joins.type_', true_and] using held
    have apart : next.Touches owner off → ¬ Holds rest owner off type_ := by
      rintro ⟨rfl, inside⟩
      exact fit.leads.not_holds inside.2
    rw [holds_cons, holds, joins.holds, touches]
    rw [holds_iff_touches, holds_iff_touches, joins.type_]
    by_cases touched : pre.Touches owner off <;> by_cases reached : next.Touches owner off <;>
      simp [touched, reached, apart]
  | @toLeft pre next rest same ne left overlap right =>
    have leads : Leads (next.from_ pre.stop right) rest := fit.leads
    have order : pre.Before (next.from_ pre.stop right) := ⟨le_rfl, fun _ => ne.symm⟩
    refine ⟨sorted_cons.mpr ⟨leads_cons.mpr ⟨fun _ => order, order.leads same leads⟩,
      sorted_cons.mpr ⟨leads, fit.tail.sorted⟩⟩, .refl _, fun owner off type_ => ?_⟩
    rw [holds_cons, holds_cons, holds_cons, holds_from_iff same left overlap, and_or_left,
      and_iff_right_of_imp (fit.leads.apart same right)]
  | @inMiddle pre next rest same ne left right =>
    exact absurd ⟨same, left, lt_trans pre.start_lt_stop right⟩ (fit.clean next mem_cons_self ne)
  | @toRight pre next rest done same ne left overlap =>
    exact absurd ⟨same, left, overlap⟩ (fit.clean next mem_cons_self ne)
  | @includes pre next rest done same ne left right _ ih =>
    obtain ⟨sorted, owners, holds⟩ := ih fit.tail
    refine ⟨sorted, owners.trans ((sublist_cons_self _ _).cons_cons _), fun owner off type_ => ?_⟩
    have inside : ¬ (¬ pre.Touches owner off ∧ next.Holds owner off type_) :=
      fun ⟨outside, held⟩ => outside (held.touches same left right)
    rw [holds_cons, holds, and_or_left, or_iff_right inside]

/-- An item of another type that reaches into the request stays in the list as it is. -/
theorem Inserted.kept (inserted : Inserted pre rest done) (sorted : Sorted rest) (mem : it ∈ rest)
    (type_ : it.type_ ≠ pre.type_) (reaches : ReachesInto it pre) : it ∈ done := by
  induction inserted with
  | last => exact nomatch mem
  | otherOwner | before => exact mem_cons_of_mem _ mem
  | after _ _ _ ih | toRight _ _ _ _ _ ih =>
    rcases mem_cons.mp mem with rfl | mem
    · exact mem_cons_self
    · exact mem_cons_of_mem _ (ih (sorted_cons.mp sorted).2 mem type_ reaches)
  | @merged pre next whole rest done joins =>
    rcases mem_cons.mp mem with rfl | mem
    · exact absurd joins.type_ type_
    · -- A merged item touches the request, so nothing behind it starts before the request.
      obtain ⟨owner, early, _⟩ := reaches
      have order := ((sorted_cons.mp sorted).1 it mem (joins.owner.trans owner.symm)).1
      exact absurd (lt_of_le_of_lt order early) (Nat.not_lt_of_le joins.touch')
  | @toLeft pre next rest owner _ left =>
    rcases mem_cons.mp mem with rfl | mem
    · exact absurd reaches.2.1 (Nat.not_lt_of_le left)
    · exact mem_cons_of_mem _ (mem_cons_of_mem _ mem)
  | inMiddle =>
    rcases mem_cons.mp mem with rfl | mem
    · exact mem_cons_self
    · exact mem_cons_of_mem _ (mem_cons_of_mem _ (mem_cons_of_mem _ mem))
  | @includes pre next rest done owner _ left _ _ ih =>
    rcases mem_cons.mp mem with rfl | mem
    · exact absurd reaches.2.1 (Nat.not_lt_of_le left)
    · exact ih (sorted_cons.mp sorted).2 mem type_ reaches

/-! ### Unlocking -/

/-- No item of the caller reaches into the range to unlock. -/
def Clear (lock : RangeLockItem) (list : List RangeLockItem) : Prop :=
  ∀ it ∈ list, ¬ ReachesInto it lock

/-- What an unlock leaves: the caller keeps what it held outside the range, and everyone else keeps all. -/
structure Cut (lock : RangeLockItem) (list done : List RangeLockItem) : Prop where
  sorted : Sorted done
  owners : (done.map (·.owner)).Sublist (list.map (·.owner))
  holds : ∀ owner off type_, Holds done owner off type_ ↔ ¬ lock.Touches owner off ∧ Holds list owner off type_

/-- An item outside the range stays. -/
theorem Cut.cons (cut : Cut lock rest done) (leads : Leads it done)
    (apart : ∀ {owner off type_}, it.Holds owner off type_ → ¬ lock.Touches owner off) :
    Cut lock (it :: rest) (it :: done) := by
  refine ⟨sorted_cons.mpr ⟨leads, cut.sorted⟩, cut.owners.cons_cons _, fun owner off type_ => ?_⟩
  rw [holds_cons, holds_cons, cut.holds, and_or_left, and_iff_right_of_imp apart]

namespace Unlocked

section

variable (unlocked : Unlocked lock list done)

include unlocked

theorem leads (leads : Leads it list) : Leads it done := by
  induction unlocked with
  | done => exact leads
  | otherOwner _ _ ih | apart _ _ _ ih | toRight _ _ _ _ ih =>
    obtain ⟨here, later⟩ := leads_cons.mp leads
    exact leads_cons.mpr ⟨here, ih later⟩
  | toLeft _ _ overlap right =>
    obtain ⟨here, later⟩ := leads_cons.mp leads
    exact leads_cons.mpr ⟨fun same => (here same).cut overlap right, later⟩
  | inMiddle _ left right =>
    obtain ⟨here, later⟩ := leads_cons.mp leads
    have overlap := lt_trans left lock.start_lt_stop
    exact leads_cons.mpr ⟨here, leads_cons.mpr ⟨fun same => (here same).cut overlap right, later⟩⟩
  | includes _ _ _ _ ih => exact ih (leads_cons.mp leads).2

theorem cut (clear : Clear lock list) (sorted : Sorted list) : Cut lock list done := by
  induction unlocked with
  | done => exact ⟨.nil, .refl _, by simp⟩
  | @otherOwner item rest done ne more ih =>
    obtain ⟨first, later⟩ := sorted_cons.mp sorted
    refine (ih (forall_mem_cons.mp clear).2 later).cons (more.leads first) fun held inside => ?_
    exact ne (held.1.trans inside.1.symm)
  | @apart item rest done _ outside more ih =>
    obtain ⟨first, later⟩ := sorted_cons.mp sorted
    refine (ih (forall_mem_cons.mp clear).2 later).cons (more.leads first) ?_
    rintro _ _ _ ⟨_, _, lower, upper⟩ ⟨_, lower', upper'⟩
    rcases outside with h | h
    · exact Nat.not_le_of_lt upper (le_trans h lower')
    · exact Nat.not_le_of_lt upper' (le_trans h lower)
  | @toLeft item rest same left overlap right =>
    obtain ⟨first, later⟩ := sorted_cons.mp sorted
    have leads : Leads (item.from_ lock.stop right) rest := first
    refine ⟨sorted_cons.mpr ⟨leads, later⟩, .refl _, fun owner off type_ => ?_⟩
    rw [holds_cons, holds_cons, holds_from_iff same left overlap, and_or_left,
      and_iff_right_of_imp (first.apart same right)]
  | inMiddle same left right =>
    exact absurd ⟨same, left, lt_trans lock.start_lt_stop right⟩ (clear _ mem_cons_self)
  | toRight same left overlap =>
    exact absurd ⟨same, left, overlap⟩ (clear _ mem_cons_self)
  | @includes item rest done same left right _ ih =>
    obtain ⟨sorted, owners, holds⟩ := ih (forall_mem_cons.mp clear).2 (sorted_cons.mp sorted).2
    refine ⟨sorted, owners.cons _, fun owner off type_ => ?_⟩
    have inside : ¬ (¬ lock.Touches owner off ∧ item.Holds owner off type_) :=
      fun ⟨outside, held⟩ => outside (held.touches same left right)
    rw [holds_cons, holds, and_or_left, or_iff_right inside]

/-- An item of the caller that reaches into the range stays in the list as it is. -/
theorem kept (sorted : Sorted list) (mem : it ∈ list) (reaches : ReachesInto it lock) : it ∈ done := by
  induction unlocked with
  | done => exact nomatch mem
  | otherOwner _ _ ih | apart _ _ _ ih | toRight _ _ _ _ ih =>
    rcases mem_cons.mp mem with rfl | mem
    · exact mem_cons_self
    · exact mem_cons_of_mem _ (ih (sorted_cons.mp sorted).2 mem)
  | toLeft _ left =>
    rcases mem_cons.mp mem with rfl | mem
    · exact absurd reaches.2.1 (Nat.not_lt_of_le left)
    · exact mem_cons_of_mem _ mem
  | inMiddle =>
    rcases mem_cons.mp mem with rfl | mem
    · exact mem_cons_self
    · exact mem_cons_of_mem _ (mem_cons_of_mem _ mem)
  | includes _ left _ _ ih =>
    rcases mem_cons.mp mem with rfl | mem
    · exact absurd reaches.2.1 (Nat.not_lt_of_le left)
    · exact ih (sorted_cons.mp sorted).2 mem

end

end Unlocked

/-! ### Whole calls -/

/-- A list without equal neighbours does not see that an element was doubled. -/
theorem sublist_of_doubled {l xs ys : List Pid} {a : Pid} (chain : l.IsChain (· ≠ ·))
    (sub : l.Sublist (xs ++ a :: a :: ys)) : l.Sublist (xs ++ a :: ys) := by
  induction xs generalizing l with
  | nil =>
    rcases sublist_cons_iff.mp sub with skip | ⟨r, rfl, tail⟩
    · exact skip
    · rcases sublist_cons_iff.mp tail with skip | ⟨r', rfl, _⟩
      · exact skip.cons_cons a
      · exact absurd rfl (isChain_cons_cons.mp chain).1
  | cons x xs ih =>
    rcases sublist_cons_iff.mp sub with skip | ⟨r, rfl, tail⟩
    · exact (ih chain skip).cons x
    · exact (ih chain.of_cons tail).cons_cons x

section

variable {others : List RangeLockItem} (grouped : Grouped (others ++ rest))
include grouped

/-- The caller's items, from the first one on, stand ahead of all others. -/
theorem Grouped.together (first : ∀ it ∈ rest.head?, it.owner = lock.owner) :
    rest.Pairwise fun it other => other.owner = lock.owner → it.owner = lock.owner := by
  cases rest with
  | nil => exact .nil
  | cons head rest =>
    have owner := first head rfl
    refine pairwise_cons.mpr ⟨fun _ _ _ => owner, ?_⟩
    rw [pairwise_iff_forall_sublist]
    intro it other sub same
    have whole : [head, it, other].Sublist (others ++ head :: rest) :=
      (sub.cons_cons head).trans (sublist_append_right _ _)
    have owners := whole.map (·.owner)
    rw [map_cons, map_cons, map_cons, owner, same] at owners
    exact grouped _ _ owners

theorem Grouped.placed (away : ∀ it ∈ others, it.owner ≠ lock.owner)
    (first : ∀ it ∈ rest.head?, it.owner = lock.owner)
    (owners : (done.map (·.owner)).Sublist (lock.owner :: rest.map (·.owner))) : Grouped (others ++ done) := by
  intro a b sub
  by_contra ne
  rw [map_append] at sub
  have sub := sub.trans (owners.append_left _)
  have chain : [a, b, a].IsChain (· ≠ ·) := by simp [ne, Ne.symm ne]
  cases rest with
  | nil =>
    -- The caller is new to the list: its item stands last.
    rw [append_nil] at grouped
    obtain ⟨l, r, eq, left, right⟩ := sublist_append_iff.mp sub
    rcases sublist_singleton.mp right with rfl | rfl
    · rw [append_nil] at eq
      exact ne (grouped a b (eq ▸ left))
    have eq' : [a, b] ++ [a] = l ++ [lock.owner] := eq
    obtain ⟨rfl, last⟩ := append_inj' eq' rfl
    cases last
    obtain ⟨it, mem, owner⟩ := mem_map.mp (left.subset mem_cons_self)
    exact away it mem owner
  | cons head rest =>
    rw [map_cons, first head rfl] at sub
    have sub := sublist_of_doubled chain sub
    rw [← first head rfl] at sub
    exact ne (grouped a b (by rwa [map_append, map_cons]))

end

/-- A set that shortens nothing keeps the order of the list and overwrites exactly its range. -/
theorem WellFormed.trySetLock (wf : WellFormed list) (placed : Placed lock list done)
    (clean : ¬ Shortens list (.trySetLock lock)) : WellFormed done ∧
    ∀ owner off type_, Holds done owner off type_ ↔
      lock.Holds owner off type_ ∨ ¬ lock.Touches owner off ∧ Holds list owner off type_ := by
  obtain ⟨others, rest, inserted, rfl, away, first, loop, rfl⟩ := placed
  have parts := pairwise_append.mp wf.sorted
  have fit : Fitting lock rest := ⟨parts.2.1, wf.grouped.together first,
      fun it mem type_ reaches => clean ⟨it, mem_append_right _ mem, reaches, type_⟩⟩
  obtain ⟨sorted, owners, holds⟩ := loop.overwritten fit
  refine ⟨⟨?_, wf.grouped.placed away first owners⟩, fun owner off type_ => ?_⟩
  · refine pairwise_append.mpr ⟨parts.1, sorted, fun it mem => ?_⟩
    exact loop.leads (fun same => absurd same (away it mem)) (parts.2.2 it mem)
  · have apart : Holds others owner off type_ → ¬ lock.Touches owner off :=
      fun ⟨it, mem, held⟩ inside => away it mem (held.1.trans inside.1.symm)
    rw [holds_append, holds_append, holds, and_or_left, and_iff_right_of_imp apart, or_left_comm]

theorem WellFormed.unlock (wf : WellFormed list) (unlocked : Unlocked lock list done)
    (clean : ¬ Shortens list (.unlock lock)) : WellFormed done ∧ ∀ owner off type_, Holds done owner off type_ ↔
      ¬ lock.Touches owner off ∧ Holds list owner off type_ := by
  obtain ⟨sorted, owners, holds⟩ := unlocked.cut (fun it mem reaches => clean ⟨it, mem, reaches⟩) wf.sorted
  exact ⟨⟨sorted, fun a b sub => wf.grouped a b (sub.trans owners)⟩, holds⟩

variable {m : LockMap}

theorem LockMap.set_eq_some : m.set lock owner off = some type_ ↔
      lock.Holds owner off type_ ∨ ¬ lock.Touches owner off ∧ m owner off = some type_ := by
  rw [holds_iff_touches]
  unfold set
  split <;> simp [*]

theorem LockMap.clear_eq_some : m.clear lock owner off = some type_ ↔
      ¬ lock.Touches owner off ∧ m owner off = some type_ := by
  unfold clear
  split <;> simp [*]

/-- A call that returns and shortens no item keeps the order and updates the map as it asks. -/
theorem WellFormed.call {op : Op} (wf : WellFormed list) (refines : Refines list m) (clean : ¬ Shortens list op)
    (returned : exec list op = .ok done) : WellFormed done ∧ Refines done (m.call op) := by
  cases op with
  | trySetLock lock =>
    rcases trySetLock_run list lock with ⟨refused, _⟩ | ⟨done', returns, _, placed⟩
    · cases refused.symm.trans returned
    cases returns.symm.trans returned
    obtain ⟨wf', holds⟩ := wf.trySetLock placed clean
    refine ⟨wf', fun owner off type_ => ?_⟩
    rw [holds, refines owner off type_]
    exact LockMap.set_eq_some.symm
  | unlock lock =>
    obtain ⟨done', returns, unlocked⟩ := unlock_run list lock
    cases returns.symm.trans returned
    obtain ⟨wf', holds⟩ := wf.unlock unlocked clean
    refine ⟨wf', fun owner off type_ => ?_⟩
    rw [holds, refines owner off type_]
    exact LockMap.clear_eq_some.symm

/-- After a call that has to shorten an item the map is not refined: at the start of the call's range
the item still has its type. -/
theorem WellFormed.not_refines {op : Op} (wf : WellFormed list) (shortens : Shortens list op)
    (returned : exec list op = .ok done) : ¬ Refines done (m.call op) := by
  intro refines
  cases op with
  | trySetLock lock =>
    obtain ⟨it, mem, reaches, type_⟩ := shortens
    rcases trySetLock_run list lock with ⟨refused, _⟩ | ⟨done', returns, _, placed⟩
    · cases refused.symm.trans returned
    cases returns.symm.trans returned
    obtain ⟨others, rest, inserted, rfl, away, _, loop, rfl⟩ := placed
    have mem := (mem_append.mp mem).resolve_left fun h => away it h reaches.1
    have kept := loop.kept (pairwise_append.mp wf.sorted).2.1 mem type_ reaches
    have held := (refines lock.owner lock.start it.type_).mp
      ⟨it, mem_append_right _ kept, reaches.1, rfl, le_of_lt reaches.2.1, reaches.2.2⟩
    rcases LockMap.set_eq_some.mp held with held | ⟨outside, _⟩
    · exact type_ held.2.1.symm
    · exact outside ⟨rfl, le_rfl, lock.start_lt_stop⟩
  | unlock lock =>
    obtain ⟨it, mem, reaches⟩ := shortens
    obtain ⟨done', returns, unlocked⟩ := unlock_run list lock
    cases returns.symm.trans returned
    have held := (refines lock.owner lock.start it.type_).mp
      ⟨it, unlocked.kept wf.sorted mem reaches, reaches.1, rfl, le_of_lt reaches.2.1, reaches.2.2⟩
    exact (LockMap.clear_eq_some.mp held).1 ⟨rfl, le_rfl, lock.start_lt_stop⟩

/-! ### Runs -/

/-- A list together with the map that its calls should have led to. -/
structure Mapped where
  list : List RangeLockItem
  map : LockMap

namespace Mapped

def start : Mapped := ⟨[], fun _ _ => none⟩

variable (s : Mapped)

/-- A call that returns changes the map as it asks; a refused one changes nothing. -/
def Step (op : Op) (t : Mapped) : Prop :=
  (exec s.list op = .ok t.list ∧ t.map = s.map.call op) ∨
    (exec s.list op = .error (.error .EAGAIN "the file is locked") ∧ t = s)

/-- A call that is refused, or shortens no item of the caller. -/
def CleanStep (op : Op) (t : Mapped) : Prop := (exec s.list op = .ok t.list → ¬ Shortens s.list op) ∧ s.Step op t

/-- The list refines the map, and each owner's items are sorted, disjoint, and merged where two of one
type touch. -/
def Faithful : Prop :=
  Refines s.list s.map ∧ ∀ owner, (s.list.filter (·.owner = owner)).Pairwise RangeLockItem.Before

theorem faithful_of {s : Mapped} (wf : WellFormed s.list) (refines : Refines s.list s.map) : s.Faithful := by
  refine ⟨refines, fun owner => ?_⟩
  refine (wf.sorted.filter _).imp_of_mem fun mem mem' order => order ?_
  rw [of_decide_eq_true (mem_filter.mp mem).2, of_decide_eq_true (mem_filter.mp mem').2]

/-- In a run whose calls shorten no item, the list is in order and refines the map throughout; and a
further call that returns keeps it so exactly when it shortens no item. -/
theorem faithful_of_clean {s : Mapped} {ops : List Op} (run : Labelled.Run CleanStep start ops s) :
    s.Faithful ∧ (∀ op, ∃ t, s.Step op t) ∧
      ∀ op (t : Mapped), exec s.list op = .ok t.list → t.map = s.map.call op →
        (t.Faithful ↔ ¬ Shortens s.list op) := by
  have base : WellFormed start.list ∧ Refines start.list start.map :=
    ⟨⟨.nil, fun _ _ sub => nomatch sub.subset mem_cons_self⟩, fun _ _ _ => iff_of_false not_holds_nil nofun⟩
  have keep : ∀ s op t, (WellFormed s.list ∧ Refines s.list s.map) → CleanStep s op t →
      WellFormed t.list ∧ Refines t.list t.map := by
    rintro s op t ⟨wf, refines⟩ ⟨clean, ⟨returned, eq⟩ | ⟨_, rfl⟩⟩
    · rw [eq]
      exact wf.call refines (clean returned) returned
    · exact ⟨wf, refines⟩
  obtain ⟨wf, refines⟩ := run.invariant keep base
  refine ⟨faithful_of wf refines, fun op => ?_, fun op t returned eq => ⟨?_, fun clean => ?_⟩⟩
  · obtain ⟨list', returned | ⟨refused, _⟩⟩ := exists_step s.list op
    · exact ⟨⟨list', s.map.call op⟩, .inl ⟨returned, rfl⟩⟩
    · exact ⟨s, .inr ⟨refused, rfl⟩⟩
  · intro faithful shortens
    exact wf.not_refines shortens returned (eq ▸ faithful.1)
  · obtain ⟨wf', refines'⟩ := wf.call refines clean returned
    exact faithful_of wf' (eq ▸ refines')

/-- The owner locks `[0, 30)` for reading, turns `[0, 10)` into a write lock, unlocks `[0, 5)` and
reads `[10, 40)` once more. -/
def shrinking : List Op :=
  [.trySetLock ⟨1, .readLock, ⟨0, 30, by decide⟩⟩, .trySetLock ⟨1, .writeLock, ⟨0, 12, by decide⟩⟩,
    .unlock ⟨1, .unlock, ⟨0, 6, by decide⟩⟩, .trySetLock ⟨1, .readLock, ⟨12, 40, by decide⟩⟩]

/-- Calls that return and shorten nothing. -/
def execClean (op : Op) : Res Mapped :=
  if Shortens s.list op then .error (.panic "the call shortens an item")
  else return ⟨← exec s.list op, s.map.call op⟩

theorem execClean_ok {s t : Mapped} {op : Op} (h : execClean s op = .ok t) : CleanStep s op t := by
  unfold execClean at h
  split at h
  · cases h
  · obtain ⟨list, returned, eq⟩ := MlsDisk.bind_ok.mp h
    cases eq
    exact ⟨fun _ => ‹_›, .inl ⟨returned, rfl⟩⟩

theorem faithful_shrinking : ∃ s, Labelled.Run CleanStep start shrinking s ∧ s.list.length = 2 ∧ s.Faithful := by
  obtain ⟨s, returns, two⟩ : ∃ s, shrinking.foldlM execClean start = .ok s ∧ s.list.length = 2 :=
    ⟨_, rfl, rfl⟩
  have run : Labelled.Run CleanStep start shrinking s := by
    refine .of_foldlM (fun op _ s t h => ?_) returns
    exact execClean_ok h
  exact ⟨s, run, two, (faithful_of_clean run).1⟩

/-- After locking `[0, 10)` for reading and unlocking `[5, 10)`, all of `[0, 10)` is still locked. -/
theorem unlocked_tail_stays_locked : ∃ s, Labelled.Run Step start
        [.trySetLock ⟨1, .readLock, ⟨0, 10, by decide⟩⟩, .unlock ⟨1, .unlock, ⟨5, 10, by decide⟩⟩] s ∧
      Holds s.list 1 7 .readLock ∧ ¬ s.Faithful := by
  let lock : RangeLockItem := ⟨1, .readLock, ⟨0, 10, by decide⟩⟩
  let cut : RangeLockItem := ⟨1, .unlock, ⟨5, 10, by decide⟩⟩
  let mid : Mapped := ⟨[lock], start.map.set lock⟩
  let last : Mapped := ⟨[lock], mid.map.clear cut⟩
  have held : Holds last.list 1 7 .readLock := ⟨lock, mem_singleton_self _, by decide⟩
  have first : Step start (.trySetLock lock) mid := .inl ⟨rfl, rfl⟩
  have second : Step mid (.unlock cut) last := .inl ⟨by decide, rfl⟩
  refine ⟨last, .cons first (.single second), held, fun faithful => ?_⟩
  exact absurd ((faithful.1 1 7 .readLock).mp held) (by decide)

end Mapped

end OmegaOsx.RangeLock
