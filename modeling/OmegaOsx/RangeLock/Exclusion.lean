import OmegaOsx.RangeLock.List

/-!
# Mutual exclusion of record locks

Whatever the two loops do to the caller's items, they never make an offset held that was not held
with that type before or is part of the request (`Inserted.holds`, `Unlocked.holds`). So the check
that lets a request in is still good after the list has been rewritten, and no two owners ever hold
overlapping items of which one is a write lock (`exclusion`).
-/

namespace OmegaOsx.RangeLock

open RangeLockItem

/-- `it` gives `owner` the type `type_` at the offset `off`. -/
def RangeLockItem.Holds (it : RangeLockItem) (owner : Pid) (off : Nat) (type_ : RangeLockType) :
    Prop :=
  it.owner = owner ∧ it.type_ = type_ ∧ it.start ≤ off ∧ off < it.stop

instance (it : RangeLockItem) (owner : Pid) (off : Nat) (type_ : RangeLockType) :
    Decidable (it.Holds owner off type_) :=
  inferInstanceAs (Decidable (_ ∧ _ ∧ _ ∧ _))

/-- Some item of the list gives `owner` the type `type_` at `off`. -/
def Holds (list : List RangeLockItem) (owner : Pid) (off : Nat) (type_ : RangeLockType) : Prop :=
  ∃ it ∈ list, it.Holds owner off type_

variable {list done : List RangeLockItem} {list' : List RangeLockItem} {it lock : RangeLockItem}

section Held

variable {owner : Pid} {off : Nat} {type_ : RangeLockType}

@[simp] theorem not_holds_nil : ¬ Holds [] owner off type_ := fun ⟨_, mem, _⟩ => nomatch mem

@[simp] theorem holds_cons :
    Holds (it :: list) owner off type_ ↔ it.Holds owner off type_ ∨ Holds list owner off type_ := by
  simp only [Holds, List.mem_cons, or_and_right, exists_or, exists_eq_left]

@[simp] theorem holds_append : Holds (list ++ list') owner off type_ ↔
      Holds list owner off type_ ∨ Holds list' owner off type_ := by
  simp only [Holds, List.mem_append, or_and_right, exists_or]

variable {stop : Nat} {h : stop < it.stop}

theorem RangeLockItem.Holds.of_from (le : it.start ≤ stop)
    (held : (it.from_ stop h).Holds owner off type_) : it.Holds owner off type_ :=
  ⟨held.1, held.2.1, le_trans le held.2.2.1, held.2.2.2⟩

/-- The union of two touching items holds what one of them holds. -/
theorem RangeLockItem.Joins.holds {other whole : RangeLockItem} (joins : it.Joins other whole) :
    whole.Holds owner off type_ ↔ other.Holds owner off type_ ∨ it.Holds owner off type_ := by
  obtain ⟨owner_eq, type_eq, touch, touch', owner', type_', start, stop⟩ := joins
  unfold RangeLockItem.Holds
  rw [owner', type_', owner_eq, type_eq, ← and_or_left, ← and_or_left]
  exact and_congr_right fun _ => and_congr_right fun _ => by omega

/-- The insertion makes nothing held but what was held and what is requested. -/
theorem Inserted.holds {pre : RangeLockItem} {rest : List RangeLockItem} (inserted : Inserted pre rest done)
    (held : Holds done owner off type_) : pre.Holds owner off type_ ∨ Holds rest owner off type_ := by
  induction inserted with
  | last | otherOwner | before => exact holds_cons.mp held
  | @after pre next rest done _ _ _ ih | @toRight pre next rest done _ _ _ _ _ ih =>
    rw [holds_cons] at held ⊢
    rcases held with here | later
    · exact .inr (.inl here)
    · exact (ih later).imp_right .inr
  | @merged pre next whole rest done joins _ ih =>
    rw [holds_cons, ← or_assoc, ← joins.holds]
    exact ih held
  | @toLeft pre next rest _ _ _ overlap right =>
    rw [holds_cons, holds_cons] at held
    rw [holds_cons]
    exact held.imp_right (Or.imp_left (.of_from overlap.le))
  | @inMiddle pre next rest _ _ left right =>
    rw [holds_cons, holds_cons, holds_cons] at held
    rw [holds_cons]
    rcases held with here | here | here | later
    · exact .inr (.inl here)
    · exact .inl here
    · exact .inr (.inl (here.of_from (lt_trans left pre.start_lt_stop).le))
    · exact .inr (.inr later)
  | includes _ _ _ _ _ ih =>
    rw [holds_cons]
    exact (ih held).imp_right .inr

/-- Unlocking makes nothing held. -/
theorem Unlocked.holds (unlocked : Unlocked lock list done) (held : Holds done owner off type_) :
    Holds list owner off type_ := by
  induction unlocked with
  | done => exact held
  | otherOwner _ _ ih | apart _ _ _ ih | toRight _ _ _ _ ih =>
    rw [holds_cons] at held ⊢
    exact held.imp_right ih
  | toLeft _ _ overlap right =>
    rw [holds_cons] at held ⊢
    exact held.imp_left (.of_from overlap.le)
  | inMiddle _ left right =>
    rw [holds_cons, holds_cons] at held
    rw [holds_cons]
    rcases held with here | here | later
    · exact .inl here
    · exact .inl (here.of_from (lt_trans left lock.start_lt_stop).le)
    · exact .inr later
  | includes _ _ _ _ ih =>
    rw [holds_cons]
    exact .inr (ih held)

theorem Placed.holds (placed : Placed lock list done) (held : Holds done owner off type_) :
    lock.Holds owner off type_ ∨ Holds list owner off type_ := by
  obtain ⟨others, rest, inserted, rfl, _, _, loop, rfl⟩ := placed
  rw [holds_append] at held ⊢
  rcases held with here | later
  · exact .inr (.inl here)
  · exact (loop.holds later).imp_right .inr

end Held

theorem RangeLockItem.conflictWith_iff {other : RangeLockItem} : it.conflictWith other ↔ it.owner ≠ other.owner ∧
      (∃ off, it.range.Contains off ∧ other.range.Contains off) ∧
      (it.type_ = .writeLock ∨ other.type_ = .writeLock) := by
  rw [← FileRange.overlapWith_isSome]
  unfold conflictWith overlapWith
  cases it.range.overlapWith other.range <;> simp

/-- A call on the list. -/
inductive Op
  | trySetLock (reqLock : RangeLockItem)
  | unlock (lock : RangeLockItem)
  deriving DecidableEq

def exec (list : List RangeLockItem) : Op → Res (List RangeLockItem)
  | .trySetLock reqLock => trySetLock list reqLock
  | .unlock lock => unlock list lock

/-- One call: the list it leaves, which is the old one when a set is refused. -/
def Step (list : List RangeLockItem) (op : Op) (list' : List RangeLockItem) : Prop :=
  exec list op = .ok list' ∨ (exec list op = .error (.error .EAGAIN "the file is locked") ∧ list' = list)

/-- Every call returns or is refused; none panics. -/
theorem exists_step (list : List RangeLockItem) (op : Op) : ∃ list', Step list op list' := by
  cases op with
  | trySetLock reqLock =>
    rcases trySetLock_run list reqLock with ⟨refused, _⟩ | ⟨done, returns, _⟩
    · exact ⟨list, .inr ⟨refused, rfl⟩⟩
    · exact ⟨done, .inl returns⟩
  | unlock lock =>
    obtain ⟨done, returns, _⟩ := unlock_run list lock
    exact ⟨done, .inl returns⟩

/-- No two owners disagree at an offset: if one holds a write lock there, no other holds anything. -/
def Exclusive (list : List RangeLockItem) : Prop :=
  ∀ owner owner' off type_, owner ≠ owner' → Holds list owner off .writeLock → ¬ Holds list owner' off type_

theorem Exclusive.mono (exclusive : Exclusive list)
    (fewer : ∀ owner off type_, Holds list' owner off type_ → Holds list owner off type_) : Exclusive list' :=
  fun owner owner' off type_ ne write held =>
    exclusive owner owner' off type_ ne (fewer _ _ _ write) (fewer _ _ _ held)

/-- A request that conflicts with no item can be placed. -/
theorem Exclusive.placed (exclusive : Exclusive list) (free : ∀ other ∈ list, ¬ lock.conflictWith other)
    (placed : Placed lock list done) : Exclusive done := by
  -- Where the request and another owner's item meet, neither is a write lock.
  have apart : ∀ owner owner' off type_ type_', owner ≠ owner' → lock.Holds owner off type_ →
      Holds list owner' off type_' → type_ ≠ .writeLock ∧ type_' ≠ .writeLock := by
    rintro owner owner' off type_ type_' ne ⟨rfl, rfl, lower, upper⟩ ⟨other, mem, rfl, rfl, inside⟩
    rw [← not_or]
    intro write
    exact free other mem (conflictWith_iff.mpr ⟨ne, ⟨off, ⟨lower, upper⟩, inside⟩, write⟩)
  intro owner owner' off type_ ne write held
  rcases placed.holds write with write | write <;> rcases placed.holds held with held | held
  · exact ne (write.1.symm.trans held.1)
  · exact (apart _ _ _ _ _ ne write held).1 rfl
  · exact (apart _ _ _ _ _ ne.symm held write).2 rfl
  · exact exclusive _ _ _ _ ne write held

theorem Exclusive.step {op : Op} (exclusive : Exclusive list) (step : Step list op list') : Exclusive list' := by
  rcases step with returned | ⟨_, rfl⟩
  · cases op with
    | trySetLock reqLock =>
      rcases trySetLock_run list reqLock with ⟨refused, _⟩ | ⟨done, returns, free, placed⟩
      · cases refused.symm.trans returned
      · cases returns.symm.trans returned
        exact exclusive.placed free placed
    | unlock lock =>
      obtain ⟨done, returns, unlocked⟩ := unlock_run list lock
      cases returns.symm.trans returned
      exact exclusive.mono fun _ _ _ => unlocked.holds
  · exact exclusive

/-- In every list that calls can lead to, two items of different owners that overlap are both not
write locks; and every further call returns or is refused. -/
theorem exclusion {list : List RangeLockItem} {ops : List Op} (run : Labelled.Run Step [] ops list) :
    (∀ it ∈ list, ∀ other ∈ list, it.owner ≠ other.owner → (it.overlapWith other).isSome →
      it.type_ ≠ .writeLock ∧ other.type_ ≠ .writeLock) ∧
    ∀ op, ∃ list', Step list op list' := by
  have start : Exclusive [] := fun _ _ _ _ _ write => absurd write not_holds_nil
  have keep : ∀ s op t, Exclusive s → Step s op t → Exclusive t :=
    fun _ _ _ => Exclusive.step
  have exclusive := run.invariant keep start
  refine ⟨?_, exists_step list⟩
  intro it mem other mem' ne overlap
  obtain ⟨off, inside, inside'⟩ := FileRange.overlapWith_isSome.mp overlap
  constructor
  · intro write
    exact exclusive _ _ off _ ne ⟨it, mem, rfl, write, inside⟩ ⟨other, mem', rfl, rfl, inside'⟩
  · intro write
    exact exclusive _ _ off _ ne.symm ⟨other, mem', rfl, write, inside'⟩ ⟨it, mem, rfl, rfl, inside⟩

/-- Two readers share `[5, 10)` after one of them turned its first half into a write lock. -/
def sharing : List Op :=
  [.trySetLock ⟨1, .readLock, ⟨0, 10, by decide⟩⟩, .trySetLock ⟨2, .readLock, ⟨5, 10, by decide⟩⟩,
    .trySetLock ⟨1, .writeLock, ⟨0, 5, by decide⟩⟩]

theorem exclusion_sharing : ∃ list, Labelled.Run Step [] sharing list ∧ list.length = 3 ∧
      ∀ it ∈ list, ∀ other ∈ list, it.owner ≠ other.owner → (it.overlapWith other).isSome →
        it.type_ ≠ .writeLock ∧ other.type_ ≠ .writeLock := by
  obtain ⟨list, returns, three⟩ : ∃ list, sharing.foldlM exec [] = .ok list ∧ list.length = 3 :=
    ⟨[⟨1, .writeLock, ⟨0, 5, by decide⟩⟩, ⟨1, .readLock, ⟨5, 10, by decide⟩⟩,
      ⟨2, .readLock, ⟨5, 10, by decide⟩⟩], by decide, rfl⟩
  have run : Labelled.Run Step [] sharing list := .of_foldlM (fun _ _ _ _ h => .inl h) returns
  exact ⟨list, run, three, (exclusion run).1⟩

end OmegaOsx.RangeLock
