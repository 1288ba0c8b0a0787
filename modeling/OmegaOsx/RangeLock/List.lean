import OmegaOsx.MlsDisk.Basic
import OmegaOsx.Lib.Run

/-!
# The list of record locks of a file

`RangeLockList` holds the POSIX advisory locks of a file as one vector of items, each an owner, a
type and a half-open range. `trySetLock` refuses a lock that conflicts with another owner's item and
otherwise drops it into the caller's part of the vector, where a loop merges, splits, shrinks and
deletes its neighbours; `unlock` cuts a range out of the caller's items.

`RangeLockItem::set_end` shortens a *copy* of the item's range, so it checks the new end and leaves
the item as it was. `setEnd` does the same.

The wait queues and the wakers are left out: they decide when a blocked caller tries again, not what
a call does to the list.
-/

namespace OmegaOsx.RangeLock

open List

inductive Errno
  | EINVAL
  | EAGAIN
  deriving DecidableEq, Repr

inductive Fault
  | error (errno : Errno) (msg : String)
  | panic (msg : String)
  deriving DecidableEq, Repr

abbrev Res (α : Type) := Except Fault α

/-- `Result::expect`: an error becomes a panic with the given message. -/
def expect {α : Type} (msg : String) : Res α → Res α
  | .ok a => .ok a
  | .error _ => .error (.panic msg)

inductive FileRangeChange
  | same
  | expanded
  | shrunk
  deriving DecidableEq, Repr

/-- The position of a range relative to another, overlapping one. -/
inductive OverlapWith
  | toLeft
  | toRight
  | inMiddle
  | includes
  deriving DecidableEq, Repr

/-- The range `[start, stop)`. The fields are private to the source's module and every function of it
keeps `start < stop`. -/
structure FileRange where
  start : Nat
  stop : Nat
  valid : start < stop
  deriving DecidableEq

namespace FileRange

def new (start stop : Nat) : Res FileRange :=
  if h : start ≥ stop then .error (.error .EINVAL "invalid parameters")
  else .ok ⟨start, stop, Nat.lt_of_not_ge h⟩

def setStart (r : FileRange) (newStart : Nat) : Res (FileRange × FileRangeChange) :=
  if h : newStart ≥ r.stop then .error (.error .EINVAL "invalid new start")
  else
    .ok (⟨newStart, r.stop, Nat.lt_of_not_ge h⟩,
      if newStart > r.start then .shrunk else if newStart < r.start then .expanded else .same)

def setEnd (r : FileRange) (newEnd : Nat) : Res (FileRange × FileRangeChange) :=
  if h : newEnd ≤ r.start then .error (.error .EINVAL "invalid new end")
  else
    .ok (⟨r.start, newEnd, Nat.lt_of_not_ge h⟩,
      if newEnd < r.stop then .shrunk else if newEnd > r.stop then .expanded else .same)

def overlapWith (r other : FileRange) : Option OverlapWith :=
  if r.start ≥ other.stop ∨ r.stop ≤ other.start then none
  else if r.start ≤ other.start ∧ r.stop < other.stop then some .toLeft
  else if r.start > other.start ∧ r.stop < other.stop then some .inMiddle
  else if r.start > other.start ∧ r.stop ≥ other.stop then some .toRight
  else some .includes

def merge (r other : FileRange) : Res (FileRange × FileRangeChange) :=
  if r.stop < other.start ∨ other.stop < r.start then
    .error (.error .EINVAL "can not merge separated ranges")
  else
    .ok (⟨min other.start r.start, max other.stop r.stop, by have := r.valid; omega⟩,
      if other.start < r.start ∨ other.stop > r.stop then .expanded else .same)

def Contains (r : FileRange) (off : Nat) : Prop := r.start ≤ off ∧ off < r.stop

instance (r : FileRange) (off : Nat) : Decidable (r.Contains off) :=
  inferInstanceAs (Decidable (_ ∧ _))

theorem overlapWith_isSome {r other : FileRange} :
    (r.overlapWith other).isSome ↔ ∃ off, r.Contains off ∧ other.Contains off := by
  have := r.valid
  have := other.valid
  constructor
  · intro h
    refine ⟨max r.start other.start, ?_⟩
    unfold overlapWith at h
    split at h
    · cases h
    · unfold Contains
      omega
  · rintro ⟨off, ⟨_, _⟩, _, _⟩
    unfold overlapWith
    rw [if_neg (by omega)]
    repeat' split
    all_goals rfl

end FileRange

inductive RangeLockType
  | readLock
  | writeLock
  | unlock
  deriving DecidableEq, Repr

/-- A process id. -/
abbrev Pid := Nat

structure RangeLockItem where
  owner : Pid
  type_ : RangeLockType
  range : FileRange
  deriving DecidableEq

namespace RangeLockItem

def start (it : RangeLockItem) : Nat := it.range.start

def stop (it : RangeLockItem) : Nat := it.range.stop

def overlapWith (it other : RangeLockItem) : Option OverlapWith := it.range.overlapWith other.range

def conflictWith (it other : RangeLockItem) : Bool :=
  if it.owner = other.owner then false
  else if (it.overlapWith other).isNone then false
  else it.type_ = .writeLock || other.type_ = .writeLock

def mergeWith (it other : RangeLockItem) : Res RangeLockItem := do
  let (range, _) ← expect "merge range failed" (it.range.merge other.range)
  .ok { it with range }

def setStart (it : RangeLockItem) (newStart : Nat) : Res RangeLockItem := do
  let (range, _) ← expect "invalid new start" (it.range.setStart newStart)
  .ok { it with range }

/-- `self.range()` returns a copy: the new range is computed and dropped. -/
def setEnd (it : RangeLockItem) (newEnd : Nat) : Res RangeLockItem := do
  let (_, _) ← expect "invalid new end" (it.range.setEnd newEnd)
  .ok it

end RangeLockItem

/-- The loop of `insert_lock_into_list` from `pre_idx` on: `pre` is the item at `pre_idx` and the
argument is what stands after it. A swap followed by advancing both indices leaves `next` behind. -/
def insertLoop (pre : RangeLockItem) : List RangeLockItem → Res (List RangeLockItem)
  | [] => .ok [pre]
  | next :: rest =>
    if next.owner ≠ pre.owner then .ok (pre :: next :: rest)
    else if next.type_ = pre.type_ then
      if pre.stop < next.start then .ok (pre :: next :: rest)
      else if next.stop < pre.start then do
        let done ← insertLoop pre rest
        .ok (next :: done)
      else do
        let merged ← next.mergeWith pre
        insertLoop merged rest
    else
      if pre.stop ≤ next.start then .ok (pre :: next :: rest)
      else if next.stop ≤ pre.start then do
        let done ← insertLoop pre rest
        .ok (next :: done)
      else
        match pre.overlapWith next with
        | none => .error (.panic "called Option::unwrap() on a None value")
        | some .toLeft => do
          let shrunk ← next.setStart pre.stop
          .ok (pre :: shrunk :: rest)
        | some .inMiddle => do
          let right ← next.setStart pre.stop
          let left ← next.setEnd pre.start
          .ok (left :: pre :: right :: rest)
        | some .toRight => do
          let left ← next.setEnd pre.start
          let done ← insertLoop pre rest
          .ok (left :: done)
        | some .includes => insertLoop pre rest

variable (list : List RangeLockItem) (lock : RangeLockItem)

def insertLockIntoList : Res (List RangeLockItem) :=
  match list.findIdx? (·.owner = lock.owner) with
  | none => .ok (list ++ [lock])
  | some idx => do
    let done ← insertLoop lock (list.drop idx)
    .ok (list.take idx ++ done)

def trySetLock (reqLock : RangeLockItem) : Res (List RangeLockItem) :=
  match list.find? (reqLock.conflictWith ·) with
  | some _ => .error (.error .EAGAIN "the file is locked")
  | none => insertLockIntoList list reqLock

/-- The loop of `unlock`, over the items from `skipped` on. -/
def unlockLoop (lock : RangeLockItem) : List RangeLockItem → Res (List RangeLockItem)
  | [] => .ok []
  | item :: rest =>
    if item.owner ≠ lock.owner then do
      let done ← unlockLoop lock rest
      .ok (item :: done)
    else
      match lock.overlapWith item with
      | none => do
        let done ← unlockLoop lock rest
        .ok (item :: done)
      | some .toLeft => do
        let shrunk ← item.setStart lock.stop
        .ok (shrunk :: rest)
      | some .inMiddle => do
        let right ← item.setStart lock.stop
        let left ← item.setEnd lock.start
        .ok (left :: right :: rest)
      | some .toRight => do
        let left ← item.setEnd lock.start
        let done ← unlockLoop lock rest
        .ok (left :: done)
      | some .includes => unlockLoop lock rest

def unlock : Res (List RangeLockItem) :=
  unlockLoop lock list

/-! ### What the operations on items return -/

variable {it : RangeLockItem}

namespace RangeLockItem

theorem start_lt_stop (it : RangeLockItem) : it.start < it.stop := it.range.valid

/-- The item `it` cut down to what lies at or after `off`. -/
def from_ (it : RangeLockItem) (off : Nat) (h : off < it.stop) : RangeLockItem :=
  { it with range := ⟨off, it.stop, h⟩ }

theorem setStart_eq {off : Nat} (h : off < it.stop) : it.setStart off = .ok (it.from_ off h) := by
  have valid : ¬ off ≥ it.range.stop := Nat.not_le_of_lt h
  unfold setStart FileRange.setStart
  rw [dif_neg valid]
  rfl

theorem setEnd_eq {off : Nat} (h : it.start < off) : it.setEnd off = .ok it := by
  have valid : ¬ off ≤ it.range.start := Nat.not_le_of_lt h
  unfold setEnd FileRange.setEnd
  rw [dif_neg valid]
  rfl

theorem overlapWith_spec (it other : RangeLockItem) :
    match it.overlapWith other with
    | none => other.stop ≤ it.start ∨ it.stop ≤ other.start
    | some .toLeft => it.start ≤ other.start ∧ other.start < it.stop ∧ it.stop < other.stop
    | some .inMiddle => other.start < it.start ∧ it.stop < other.stop
    | some .toRight => other.start < it.start ∧ it.start < other.stop ∧ other.stop ≤ it.stop
    | some .includes => it.start ≤ other.start ∧ other.stop ≤ it.stop := by
  unfold overlapWith FileRange.overlapWith start stop
  repeat' split
  all_goals grind

/-- `it` stands before `other` in its owner's list: it ends where `other` starts or earlier, and
earlier if they have one type. -/
def Before (it other : RangeLockItem) : Prop :=
  it.stop ≤ other.start ∧ (it.stop = other.start → it.type_ ≠ other.type_)

/-- `whole` is the union of two items of one owner and one type that overlap or touch. -/
structure Joins (it other whole : RangeLockItem) : Prop where
  owner : it.owner = other.owner
  type_ : it.type_ = other.type_
  touch : it.start ≤ other.stop
  touch' : other.start ≤ it.stop
  owner' : whole.owner = other.owner
  type_' : whole.type_ = other.type_
  start : whole.start = min other.start it.start
  stop : whole.stop = max other.stop it.stop

theorem mergeWith_run {other : RangeLockItem} (owner : it.owner = other.owner) (type_ : it.type_ = other.type_)
    (touch : it.start ≤ other.stop) (touch' : other.start ≤ it.stop) :
    ∃ whole, it.mergeWith other = .ok whole ∧ it.Joins other whole := by
  unfold mergeWith FileRange.merge
  have apart : ¬ (it.range.stop < other.range.start ∨ other.range.stop < it.range.start) := by
    rintro (h | h)
    · exact Nat.not_le_of_lt h touch'
    · exact Nat.not_le_of_lt h touch
  rw [if_neg apart]
  exact ⟨_, rfl, owner, type_, touch, touch', owner, type_, rfl, rfl⟩

end RangeLockItem

/-- What the insertion loop does, one constructor for each way through its body. -/
inductive Inserted : RangeLockItem → List RangeLockItem → List RangeLockItem → Prop
  | last (pre : RangeLockItem) : Inserted pre [] [pre]
  | otherOwner {pre next : RangeLockItem} {rest : List RangeLockItem}
      (owner : next.owner ≠ pre.owner) : Inserted pre (next :: rest) (pre :: next :: rest)
  | before {pre next : RangeLockItem} {rest : List RangeLockItem}
      (owner : next.owner = pre.owner) (order : pre.Before next) :
      Inserted pre (next :: rest) (pre :: next :: rest)
  | after {pre next : RangeLockItem} {rest done : List RangeLockItem}
      (owner : next.owner = pre.owner) (order : next.Before pre)
      (more : Inserted pre rest done) : Inserted pre (next :: rest) (next :: done)
  | merged {pre next whole : RangeLockItem} {rest done : List RangeLockItem}
      (joins : next.Joins pre whole) (more : Inserted whole rest done) :
      Inserted pre (next :: rest) done
  | toLeft {pre next : RangeLockItem} {rest : List RangeLockItem} (owner : next.owner = pre.owner)
      (type_ : next.type_ ≠ pre.type_) (left : pre.start ≤ next.start)
      (overlap : next.start < pre.stop) (right : pre.stop < next.stop) :
      Inserted pre (next :: rest) (pre :: next.from_ pre.stop right :: rest)
  | inMiddle {pre next : RangeLockItem} {rest : List RangeLockItem} (owner : next.owner = pre.owner)
      (type_ : next.type_ ≠ pre.type_) (left : next.start < pre.start)
      (right : pre.stop < next.stop) :
      Inserted pre (next :: rest) (next :: pre :: next.from_ pre.stop right :: rest)
  | toRight {pre next : RangeLockItem} {rest done : List RangeLockItem}
      (owner : next.owner = pre.owner) (type_ : next.type_ ≠ pre.type_)
      (left : next.start < pre.start) (overlap : pre.start < next.stop)
      (more : Inserted pre rest done) : Inserted pre (next :: rest) (next :: done)
  | includes {pre next : RangeLockItem} {rest done : List RangeLockItem}
      (owner : next.owner = pre.owner) (type_ : next.type_ ≠ pre.type_)
      (left : pre.start ≤ next.start) (right : next.stop ≤ pre.stop)
      (more : Inserted pre rest done) : Inserted pre (next :: rest) done

/-- The insertion loop returns: the merges, the new starts and the new ends it asks for are valid. -/
theorem insertLoop_run (pre : RangeLockItem) (rest : List RangeLockItem) :
    ∃ done, insertLoop pre rest = .ok done ∧ Inserted pre rest done := by
  induction rest generalizing pre with
  | nil => exact ⟨_, rfl, .last pre⟩
  | cons next rest ih =>
    obtain ⟨done, returns, inserted⟩ := ih pre
    unfold insertLoop
    by_cases owner : next.owner ≠ pre.owner
    · rw [if_pos owner]
      exact ⟨_, rfl, .otherOwner owner⟩
    rw [if_neg owner]
    have owner := not_not.mp owner
    by_cases type_ : next.type_ = pre.type_
    · rw [if_pos type_]
      by_cases left : pre.stop < next.start
      · rw [if_pos left]
        exact ⟨_, rfl, .before owner ⟨le_of_lt left, fun h => absurd h (ne_of_lt left)⟩⟩
      rw [if_neg left]
      by_cases right : next.stop < pre.start
      · rw [if_pos right, returns]
        exact ⟨_, rfl, .after owner ⟨le_of_lt right, fun h => absurd h (ne_of_lt right)⟩ inserted⟩
      rw [if_neg right]
      obtain ⟨whole, merges, joins⟩ := RangeLockItem.mergeWith_run owner type_
        (Nat.le_of_not_lt left) (Nat.le_of_not_lt right)
      obtain ⟨done, returns, inserted⟩ := ih whole
      rw [merges]
      exact ⟨done, returns, .merged joins inserted⟩
    · rw [if_neg type_]
      by_cases left : pre.stop ≤ next.start
      · rw [if_pos left]
        exact ⟨_, rfl, .before owner ⟨left, fun _ => Ne.symm type_⟩⟩
      rw [if_neg left]
      by_cases right : next.stop ≤ pre.start
      · rw [if_pos right, returns]
        exact ⟨_, rfl, .after owner ⟨right, fun _ => type_⟩ inserted⟩
      rw [if_neg right]
      have overlap := pre.overlapWith_spec next
      cases position : pre.overlapWith next with
      | none =>
        rw [position] at overlap
        exact absurd overlap (not_or.mpr ⟨right, left⟩)
      | some position' =>
        rw [position] at overlap
        cases position' with
        | toLeft =>
          obtain ⟨early, _, inside⟩ := overlap
          rw [RangeLockItem.setStart_eq inside]
          exact ⟨_, rfl, .toLeft owner type_ early (Nat.lt_of_not_le left) inside⟩
        | inMiddle =>
          obtain ⟨late, inside⟩ := overlap
          rw [RangeLockItem.setStart_eq inside, RangeLockItem.setEnd_eq late]
          exact ⟨_, rfl, .inMiddle owner type_ late inside⟩
        | toRight =>
          obtain ⟨late, within, _⟩ := overlap
          rw [RangeLockItem.setEnd_eq late, returns]
          exact ⟨_, rfl, .toRight owner type_ late within inserted⟩
        | includes => exact ⟨done, returns, .includes owner type_ overlap.1 overlap.2 inserted⟩

/-- The request was placed: it went into the list at the caller's first item, or at the end when the
caller has none. -/
def Placed (list done : List RangeLockItem) : Prop :=
  ∃ others rest inserted, list = others ++ rest ∧ (∀ it ∈ others, it.owner ≠ lock.owner) ∧
    (∀ first ∈ rest.head?, first.owner = lock.owner) ∧ Inserted lock rest inserted ∧
    done = others ++ inserted

theorem insertLockIntoList_run : ∃ done, insertLockIntoList list lock = .ok done ∧ Placed lock list done := by
  unfold insertLockIntoList
  cases found : list.findIdx? (·.owner = lock.owner) with
  | none =>
    have others : ∀ it ∈ list, it.owner ≠ lock.owner := by
      simpa using findIdx?_eq_none_iff.mp found
    exact ⟨_, rfl, list, [], [lock], (append_nil _).symm, others, nofun, .last lock, rfl⟩
  | some idx =>
    obtain ⟨bound, first, others⟩ := findIdx?_eq_some_iff_getElem.mp found
    obtain ⟨done, returns, inserted⟩ := insertLoop_run lock (list.drop idx)
    dsimp only
    rw [returns]
    refine ⟨_, rfl, list.take idx, list.drop idx, done, (take_append_drop _ _).symm, ?_, ?_, inserted, rfl⟩
    · intro it mem
      obtain ⟨i, hi, rfl⟩ := mem_take_iff_getElem.mp mem
      simpa using others i (by omega)
    · intro it head
      rw [head?_drop, getElem?_eq_getElem bound] at head
      cases head
      exact of_decide_eq_true first

/-- A set is refused when some item conflicts with it; otherwise the request is placed. -/
theorem trySetLock_run (reqLock : RangeLockItem) :
    (trySetLock list reqLock = .error (.error .EAGAIN "the file is locked") ∧
      ∃ other ∈ list, reqLock.conflictWith other) ∨
    ∃ done, trySetLock list reqLock = .ok done ∧ (∀ other ∈ list, ¬ reqLock.conflictWith other) ∧
      Placed reqLock list done := by
  unfold trySetLock
  cases found : list.find? (reqLock.conflictWith ·) with
  | some other =>
    exact .inl ⟨rfl, other, mem_of_find?_eq_some found, find?_some found⟩
  | none =>
    obtain ⟨done, returns, placed⟩ := insertLockIntoList_run list reqLock
    refine .inr ⟨done, returns, ?_, placed⟩
    simpa using find?_eq_none.mp found

/-- What the unlocking loop does. -/
inductive Unlocked (lock : RangeLockItem) : List RangeLockItem → List RangeLockItem → Prop
  | done : Unlocked lock [] []
  | otherOwner {item : RangeLockItem} {rest done : List RangeLockItem}
      (owner : item.owner ≠ lock.owner) (more : Unlocked lock rest done) :
      Unlocked lock (item :: rest) (item :: done)
  | apart {item : RangeLockItem} {rest done : List RangeLockItem} (owner : item.owner = lock.owner)
      (apart : item.stop ≤ lock.start ∨ lock.stop ≤ item.start) (more : Unlocked lock rest done) :
      Unlocked lock (item :: rest) (item :: done)
  | toLeft {item : RangeLockItem} {rest : List RangeLockItem} (owner : item.owner = lock.owner)
      (left : lock.start ≤ item.start) (overlap : item.start < lock.stop)
      (right : lock.stop < item.stop) :
      Unlocked lock (item :: rest) (item.from_ lock.stop right :: rest)
  | inMiddle {item : RangeLockItem} {rest : List RangeLockItem} (owner : item.owner = lock.owner)
      (left : item.start < lock.start) (right : lock.stop < item.stop) :
      Unlocked lock (item :: rest) (item :: item.from_ lock.stop right :: rest)
  | toRight {item : RangeLockItem} {rest done : List RangeLockItem}
      (owner : item.owner = lock.owner) (left : item.start < lock.start)
      (overlap : lock.start < item.stop) (more : Unlocked lock rest done) :
      Unlocked lock (item :: rest) (item :: done)
  | includes {item : RangeLockItem} {rest done : List RangeLockItem}
      (owner : item.owner = lock.owner) (left : lock.start ≤ item.start)
      (right : item.stop ≤ lock.stop) (more : Unlocked lock rest done) :
      Unlocked lock (item :: rest) done

theorem unlock_run : ∃ done, unlock list lock = .ok done ∧ Unlocked lock list done := by
  unfold unlock
  induction list with
  | nil => exact ⟨_, rfl, .done⟩
  | cons item rest ih =>
    obtain ⟨done, returns, unlocked⟩ := ih
    unfold unlockLoop
    by_cases owner : item.owner ≠ lock.owner
    · rw [if_pos owner, returns]
      exact ⟨_, rfl, .otherOwner owner unlocked⟩
    rw [if_neg owner]
    have owner := not_not.mp owner
    have overlap := lock.overlapWith_spec item
    cases position : lock.overlapWith item with
    | none =>
      rw [position] at overlap
      rw [returns]
      exact ⟨_, rfl, .apart owner overlap unlocked⟩
    | some position' =>
      rw [position] at overlap
      cases position' with
      | toLeft =>
        obtain ⟨early, within, inside⟩ := overlap
        rw [RangeLockItem.setStart_eq inside]
        exact ⟨_, rfl, .toLeft owner early within inside⟩
      | inMiddle =>
        obtain ⟨late, inside⟩ := overlap
        rw [RangeLockItem.setStart_eq inside, RangeLockItem.setEnd_eq late]
        exact ⟨_, rfl, .inMiddle owner late inside⟩
      | toRight =>
        obtain ⟨late, within, _⟩ := overlap
        rw [RangeLockItem.setEnd_eq late, returns]
        exact ⟨_, rfl, .toRight owner late within unlocked⟩
      | includes => exact ⟨done, returns, .includes owner overlap.1 overlap.2 unlocked⟩

end OmegaOsx.RangeLock
