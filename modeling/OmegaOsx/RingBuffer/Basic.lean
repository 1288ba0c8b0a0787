import OmegaOsx.MlsDisk.Basic
import OmegaOsx.Lib.Ring
import OmegaOsx.Lib.Run

/-!
# The ring buffer

A `RingBuffer` is shared by one producer and one consumer. The producer owns the tail counter and the
free slots, the consumer the head counter and the filled ones; each reads the other's counter once, at
the start of a call, and publishes its own at the end. The counters count items modulo the machine
word and select a slot by their low bits.

A call is a load of the counters, then the copies of its items one by one, then a store of its own
counter; the steps of the two parties may come in any order. A user buffer is the items it holds (or
the room it has) and the place, if any, at which it faults.

The segment is a list of slots for items: an item of `T_SIZE` bytes at slot `i` is at byte
`i * T_SIZE`.
-/

namespace OmegaOsx.Util

open List

abbrev Res (α : Type) := Except String α

def panicWith {α : Type} (msg : String) : Res α := .error msg

/-- `Wrapping<usize> + usize`. -/
def wrappingAdd (a b : Nat) : Nat := (a + b) % 2 ^ 64

/-- `Wrapping<usize> - Wrapping<usize>`. -/
def wrappingSub (a b : Nat) : Nat := (a + 2 ^ 64 - b) % 2 ^ 64

/-! ### User buffers -/

/-- A buffer of user space to copy from or to: what is left of it and where it faults. -/
structure UserBuf (α : Type) where
  rest : List α
  fault : Option Nat

variable {bufs : List (UserBuf α)}

namespace UserBuf

variable {α : Type}

/-- What a copy did: the units it copied, whether it ended without a fault, and what is left. -/
structure Copied (α : Type) (β : Type) where
  units : List α
  done : Bool
  left : β

/-- `read_fallible`: copies until the buffer is exhausted or `avail` units are copied. -/
def copy (b : UserBuf α) (avail : Nat) : Copied α (UserBuf α) :=
  let copyLen := min b.rest.length avail
  match b.fault with
  | none => ⟨b.rest.take copyLen, true, ⟨b.rest.drop copyLen, none⟩⟩
  | some fault =>
    if fault < copyLen then ⟨b.rest.take fault, false, ⟨b.rest.drop fault, some 0⟩⟩
    else ⟨b.rest.take copyLen, true, ⟨b.rest.drop copyLen, some (fault - copyLen)⟩⟩

/-- `MultiRead::read` and `MultiWrite::write`, over the buffers of an I/O vector. -/
def copyAll : List (UserBuf α) → Nat → Copied α (List (UserBuf α))
  | [], _ => ⟨[], true, []⟩
  | b :: bufs, avail =>
    let first := b.copy avail
    if first.done = false then ⟨first.units, false, first.left :: bufs⟩
    else if avail - first.units.length = 0 then ⟨first.units, true, first.left :: bufs⟩
    else
      let more := copyAll bufs (avail - first.units.length)
      ⟨first.units ++ more.units, more.done, first.left :: more.left⟩

/-- Everything the buffers hold. -/
def units (bufs : List (UserBuf α)) : List α := bufs.flatMap rest

theorem copy_isPrefix (b : UserBuf α) (avail : Nat) : (b.copy avail).units <+: b.rest := by
  unfold copy
  dsimp only
  split
  · exact take_prefix _ _
  · split
    · exact take_prefix _ _
    · exact take_prefix _ _

theorem length_copy_le (b : UserBuf α) (avail : Nat) : (b.copy avail).units.length ≤ avail := by
  unfold copy
  dsimp only
  split
  · rw [length_take]
    omega
  split
  · rw [length_take]
    omega
  · rw [length_take]
    omega

theorem copy_done {b : UserBuf α} {avail : Nat} (done : (b.copy avail).done = true) :
    (b.copy avail).units = b.rest.take avail ∧ (b.copy avail).left.rest = b.rest.drop avail := by
  have clip : ∀ xs : List α, xs.take (min xs.length avail) = xs.take avail ∧
      xs.drop (min xs.length avail) = xs.drop avail := by
    intro xs
    rcases le_total xs.length avail with le | le
    · rw [min_eq_left le, take_length, drop_length, take_of_length_le le, drop_of_length_le le]
      exact ⟨rfl, rfl⟩
    · rw [min_eq_right le]
      exact ⟨rfl, rfl⟩
  unfold copy at done ⊢
  split
  · exact clip _
  · next fault eq =>
    rw [eq] at done
    dsimp only at done
    split at done
    · cases done
    · rw [if_neg ‹_›]
      exact clip _

theorem length_copyAll_le (bufs : List (UserBuf α)) (avail : Nat) : (copyAll bufs avail).units.length ≤ avail := by
  induction bufs generalizing avail with
  | nil => exact Nat.zero_le _
  | cons b bufs ih =>
    have first := b.length_copy_le avail
    have rest := ih (avail - (b.copy avail).units.length)
    unfold copyAll
    dsimp only
    split
    · exact first
    split
    · exact first
    · rw [length_append]
      omega

/-- A copy that does not fault copies as much as both sides allow, and leaves the rest. -/
theorem copyAll_done {avail : Nat} (done : (copyAll bufs avail).done = true) :
    (copyAll bufs avail).units = (units bufs).take avail ∧
      units (copyAll bufs avail).left = (units bufs).drop avail := by
  induction bufs generalizing avail with
  | nil => exact ⟨take_nil.symm, drop_nil.symm⟩
  | cons b bufs ih =>
    unfold copyAll at done ⊢
    dsimp only at done ⊢
    split at done
    · cases done
    · next ok =>
      obtain ⟨copied, left⟩ := copy_done (Bool.eq_true_of_not_eq_false ok)
      have count : (b.copy avail).units.length = min avail b.rest.length := by
        rw [copied, length_take]
      unfold units at ih ⊢
      rw [if_neg ok, flatMap_cons, take_append, drop_append]
      split
      · next full =>
        have over_ : avail - b.rest.length = 0 := by omega
        rw [flatMap_cons, copied, left, over_, take_zero, append_nil]
        exact ⟨rfl, rfl⟩
      · next more =>
        rw [if_neg more] at done
        have short : (b.copy avail).units.length = b.rest.length := by omega
        obtain ⟨copied', left'⟩ := ih done
        rw [flatMap_cons, copied', left', short, copied, left]
        exact ⟨rfl, rfl⟩

/-- Whatever was copied before a fault came from the buffers. -/
theorem copyAll_of_units_nil (empty : units bufs = []) (avail : Nat) : (copyAll bufs avail).units = [] := by
  induction bufs generalizing avail with
  | nil => rfl
  | cons b bufs ih =>
    unfold units at empty ih
    rw [flatMap_cons, append_eq_nil_iff] at empty
    have first : (b.copy avail).units = [] := by
      have := b.copy_isPrefix avail
      rw [empty.1] at this
      exact prefix_nil.mp this
    unfold copyAll
    dsimp only
    rw [first]
    split
    · rfl
    · split
      · rfl
      · exact ih empty.2 _

/-- A copy in two parts: a first part that ends short leaves nothing for the second. -/
theorem copyAll_parts {gap len : Nat} (le : gap ≤ len) (ok : (copyAll bufs gap).done = true) :
    ((copyAll bufs gap).units.length = gap ∨ (copyAll (copyAll bufs gap).left (len - gap)).units = []) ∧
      ((copyAll (copyAll bufs gap).left (len - gap)).done = true →
        (copyAll bufs gap).units ++ (copyAll (copyAll bufs gap).left (len - gap)).units = (units bufs).take len) := by
  obtain ⟨copied, left⟩ := copyAll_done ok
  refine ⟨?_, fun done => ?_⟩
  · rcases lt_or_ge (units bufs).length gap with short | long
    · rw [drop_of_length_le short.le] at left
      exact .inr (copyAll_of_units_nil left _)
    · rw [copied, length_take_of_le long]
      exact .inl rfl
  · rw [(copyAll_done done).1, copied, left, ← take_add, Nat.add_sub_of_le le]

end UserBuf

/-! ### The buffer -/

structure RingBuffer (T : Type) where
  segment : List T
  capacity : Nat
  tail : Nat
  head : Nat
  /-- `new` asserts it. -/
  power : ∃ k < 64, capacity = 2 ^ k
  size : segment.length = capacity

namespace RingBuffer

variable {T : Type}

/-- The frames of a new buffer are not zeroed: the slots hold anything. -/
def new (segment : List T) (power : ∃ k < 64, segment.length = 2 ^ k) : RingBuffer T :=
  ⟨segment, segment.length, 0, 0, power, rfl⟩

variable (rb : RingBuffer T)

def len : Nat := wrappingSub rb.tail rb.head

def freeLen : Res Nat :=
  if rb.capacity < rb.len then panicWith "attempt to subtract with overflow"
  else .ok (rb.capacity - rb.len)

/-- The slot of a counter. -/
def offset (counter : Nat) : Nat := counter &&& (rb.capacity - 1)

def set (rb : RingBuffer T) (slot : Nat) (item : T) : RingBuffer T :=
  { rb with
    segment := rb.segment.set slot item
    size := by rw [List.length_set]; exact rb.size }

def advanceTail (tail len : Nat) : RingBuffer T :=
  { rb with tail := wrappingAdd tail len }

def advanceHead (head len : Nat) : RingBuffer T :=
  { rb with head := wrappingAdd head len }

/-- The items between the counters. -/
def contents : List T :=
  (List.range rb.len).filterMap fun i => rb.segment[rb.offset (wrappingAdd rb.head i)]?

end RingBuffer

/-! ### Calls of the producer -/

/-- A call of the producer after it has loaded the counters: the items to store and their slots, and
by how much the tail advances then; a call that faults does not advance it. -/
structure Writing (T : Type) where
  tail : Nat
  todo : List (Nat × T)
  advance : Option Nat

namespace Producer

variable {T : Type}

/-- Items stored from a slot on. -/
def slots (start : Nat) (items : List T) : List (Nat × T) :=
  (List.range' start items.length).zip items

variable (rb : RingBuffer T)

def push (item : T) : Res (Option (Writing T)) := do
  let free ← rb.freeLen
  if free = 0 then pure none
  else pure (some ⟨rb.tail, slots (rb.offset rb.tail) [item], some 1⟩)

def pushSlice (items : List T) : Res (Option (Writing T)) := do
  let nitems := items.length
  let free ← rb.freeLen
  if free < nitems then pure none
  else
    let offset := rb.offset rb.tail
    let todo :=
      if rb.capacity < offset + nitems then
        slots offset (items.take (rb.capacity - offset)) ++ slots 0 (items.drop (rb.capacity - offset))
      else slots offset items
    pure (some ⟨rb.tail, todo, some nitems⟩)

/-- `write_fallible_with_max_len`; `write_fallible` passes `usize::MAX`. -/
def writeFallibleWithMaxLen (reader : List (UserBuf T)) (maxLen : Nat) : Res (Writing T) := do
  let free ← rb.freeLen
  let freeLen := min free maxLen
  let offset := rb.offset rb.tail
  if rb.capacity < offset + freeLen then
    let first := UserBuf.copyAll reader (rb.capacity - offset)
    if first.done = false then pure ⟨rb.tail, slots offset first.units, none⟩
    else
      let second := UserBuf.copyAll first.left (freeLen - (rb.capacity - offset))
      pure ⟨rb.tail, slots offset first.units ++ slots 0 second.units,
        if second.done then some (first.units.length + second.units.length) else none⟩
  else
    let all := UserBuf.copyAll reader freeLen
    pure ⟨rb.tail, slots offset all.units, if all.done then some all.units.length else none⟩

end Producer

/-! ### Calls of the consumer -/

/-- A call of the consumer after it has loaded the counters: the slots to read, and by how much the
head advances then. -/
structure Reading where
  head : Nat
  todo : List Nat
  advance : Option Nat

namespace Consumer

variable {T : Type} (rb : RingBuffer T)

def pop : Option Reading :=
  if rb.len = 0 then none else some ⟨rb.head, [rb.offset rb.head], some 1⟩

def popSlice (nitems : Nat) : Option Reading :=
  if rb.len < nitems then none
  else
    let offset := rb.offset rb.head
    let todo :=
      if rb.capacity < offset + nitems then
        List.range' offset (rb.capacity - offset) ++ List.range' 0 (nitems - (rb.capacity - offset))
      else List.range' offset nitems
    some ⟨rb.head, todo, some nitems⟩

/-- `read_fallible_with_max_len`; `read_fallible` passes `usize::MAX`. -/
def readFallibleWithMaxLen (writer : List (UserBuf Unit)) (maxLen : Nat) : Reading :=
  let len := min rb.len maxLen
  let offset := rb.offset rb.head
  if rb.capacity < offset + len then
    let first := UserBuf.copyAll writer (rb.capacity - offset)
    if first.done = false then ⟨rb.head, List.range' offset first.units.length, none⟩
    else
      let second := UserBuf.copyAll first.left (len - (rb.capacity - offset))
      ⟨rb.head, List.range' offset first.units.length ++ List.range' 0 second.units.length,
        if second.done then some (first.units.length + second.units.length) else none⟩
  else
    let all := UserBuf.copyAll writer len
    ⟨rb.head, List.range' offset all.units.length, if all.done then some all.units.length else none⟩

/-- The head that `skip` starts from. -/
def skip (count : Nat) : Res Nat :=
  if rb.len < count then panicWith "assertion failed: len >= count" else .ok rb.head

end Consumer

end OmegaOsx.Util
