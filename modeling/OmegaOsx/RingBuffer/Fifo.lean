import OmegaOsx.RingBuffer.Basic

/-!
# The ring buffer is a bounded queue

`System.exec` interleaves the steps of one producer and one consumer. `Fifo.Step` is the queue they
share: a list of items, at most `capacity` of them, to whose end items are added and from whose front
they are taken.
-/

namespace OmegaOsx.Util

open Labelled MlsDisk UserBuf Ring RingBuffer Consumer Producer Nat

variable {T : Type}

/-! ### The parties -/

inductive ProducerState (T : Type)
  | idle
  /-- In a call; `stored` are the items it has put in their slots. -/
  | writing (call : Writing T) (stored : List T)

inductive ConsumerState (T : Type)
  | idle
  /-- In a call; `loaded` are the items it has copied out. -/
  | reading (call : Reading) (loaded : List T)
  | skipping (head count : Nat)

structure System (T : Type) where
  rb : RingBuffer T
  producer : ProducerState T
  consumer : ConsumerState T

inductive Action (T : Type)
  | push (item : T)
  | pushSlice (items : List T)
  | writeFallible (reader : List (UserBuf T)) (maxLen : Nat)
  /-- The producer stores one item in its slot. -/
  | storeItem
  /-- The producer ends its call, and advances the tail unless the user side failed. -/
  | endWrite
  | pop
  | popSlice (nitems : Nat)
  | readFallible (writer : List (UserBuf Unit)) (maxLen : Nat)
  | skip (count : Nat)
  /-- The consumer loads one item from its slot. -/
  | loadItem
  /-- The consumer ends its call, and advances the head unless the user side failed. -/
  | endRead

/-- What a step means to the users of the queue. -/
inductive Event (T : Type)
  | quiet
  | enqueued (items : List T)
  | dequeued (items : List T)
  /-- The call failed on the user side. -/
  | faulted
  /-- The call returned `None`. -/
  | refused
  deriving DecidableEq

namespace System

def new (rb : RingBuffer T) : System T := ⟨rb, .idle, .idle⟩

/-- The start of a producer's call, which needs the producer's `&mut self`. -/
def startWrite (s : System T) (call : Res (Option (Writing T))) : Res (System T × Event T) :=
  match s.producer with
  | .writing _ _ => panicWith "the producer is in a call"
  | .idle => do
    match ← call with
    | none => pure (s, .refused)
    | some w => pure ({ s with producer := .writing w [] }, .quiet)

def startRead (s : System T) (call : Option Reading) : Res (System T × Event T) :=
  match s.consumer with
  | .idle =>
    match call with
    | none => pure (s, .refused)
    | some r => pure ({ s with consumer := .reading r [] }, .quiet)
  | _ => panicWith "the consumer is in a call"

def startSkip (s : System T) (count : Nat) : Res (System T × Event T) :=
  match s.consumer with
  | .idle => do
    let head ← Consumer.skip s.rb count
    pure ({ s with consumer := .skipping head count }, .quiet)
  | _ => panicWith "the consumer is in a call"

def storeItem (s : System T) : Res (System T × Event T) :=
  match s.producer with
  | .writing ⟨tail, (slot, item) :: todo, advance⟩ stored =>
    pure ({ s with
      rb := s.rb.set slot item
      producer := .writing ⟨tail, todo, advance⟩ (stored ++ [item]) }, .quiet)
  | _ => panicWith "nothing to store"

def endWrite (s : System T) : Res (System T × Event T) :=
  match s.producer with
  | .writing ⟨_, [], none⟩ _ => pure ({ s with producer := .idle }, .faulted)
  | .writing ⟨tail, [], some len⟩ stored =>
    pure ({ s with rb := s.rb.advanceTail tail len, producer := .idle }, .enqueued stored)
  | _ => panicWith "not at the end of a call"

def loadItem (s : System T) : Res (System T × Event T) :=
  match s.consumer with
  | .reading ⟨head, slot :: todo, advance⟩ loaded =>
    match s.rb.segment[slot]? with
    | none => panicWith "no such slot"
    | some item =>
      pure ({ s with consumer := .reading ⟨head, todo, advance⟩ (loaded ++ [item]) }, .quiet)
  | _ => panicWith "nothing to load"

/-- What `skip` passes over leaves the queue like what is read. -/
def endRead (s : System T) : Res (System T × Event T) :=
  match s.consumer with
  | .reading ⟨_, [], none⟩ _ => pure ({ s with consumer := .idle }, .faulted)
  | .reading ⟨head, [], some len⟩ loaded =>
    pure ({ s with rb := s.rb.advanceHead head len, consumer := .idle }, .dequeued loaded)
  | .skipping head count =>
    pure ({ s with rb := s.rb.advanceHead head count, consumer := .idle },
      .dequeued (s.rb.contents.take count))
  | _ => panicWith "not at the end of a call"

def exec (s : System T) : Action T → Res (System T × Event T)
  | .push item => s.startWrite (Producer.push s.rb item)
  | .pushSlice items => s.startWrite (Producer.pushSlice s.rb items)
  | .writeFallible reader maxLen =>
    s.startWrite (some <$> Producer.writeFallibleWithMaxLen s.rb reader maxLen)
  | .storeItem => s.storeItem
  | .endWrite => s.endWrite
  | .pop => s.startRead (Consumer.pop s.rb)
  | .popSlice nitems => s.startRead (Consumer.popSlice s.rb nitems)
  | .readFallible writer maxLen =>
    s.startRead (some (Consumer.readFallibleWithMaxLen s.rb writer maxLen))
  | .skip count => s.startSkip count
  | .loadItem => s.loadItem
  | .endRead => s.endRead

/-- A step of one of the parties, labelled with what it does and what it means. -/
def Step (s : System T) (label : Action T × Event T) (t : System T) : Prop :=
  s.exec label.1 = .ok (t, label.2)

/-- Takes a step and compares what it means with its label. -/
def follow [DecidableEq T] (s : System T) (label : Action T × Event T) : Res (System T) := do
  let (t, event) ← s.exec label.1
  if event = label.2 then pure t else panicWith "another event"

theorem step_of_follow [DecidableEq T] {s t : System T} {label : Action T × Event T}
    (h : s.follow label = .ok t) : s.Step label t := by
  obtain ⟨⟨t', event⟩, returns, rest⟩ := bind_ok.mp h
  dsimp only at rest
  split at rest
  · next same =>
    cases rest
    rw [Step, returns, same]
  · cases rest

end System

/-! ### The queue -/

/-- The items of a producer's call in progress; a call that copies from user space may still fail. -/
structure Offer (T : Type) where
  items : List T
  fallible : Bool

/-- The number of items of a consumer's call in progress. -/
structure Demand where
  count : Nat
  fallible : Bool

structure Fifo (T : Type) where
  items : List T
  offer : Option (Offer T)
  demand : Option Demand

/-- The items a producer's call adds, all or none. -/
def Action.offers : Action T → Option (List T)
  | .push item => some [item]
  | .pushSlice items => some items
  | _ => none

/-- The number of items a consumer's call takes, all or none. -/
def Action.demands : Action T → Option Nat
  | .pop => some 1
  | .popSlice nitems => some nitems
  | _ => none

namespace Fifo

def empty : Fifo T := ⟨[], none, none⟩

/-- The steps of a queue of at most `capacity` items. -/
inductive Step (capacity : Nat) : Fifo T → Action T × Event T → Fifo T → Prop
  | offer {q : Fifo T} {action : Action T} {items : List T} (call : action.offers = some items)
      (idle : q.offer = none) (fits : q.items.length + items.length ≤ capacity) :
      Step capacity q (action, .quiet) { q with offer := some ⟨items, false⟩ }
  | refuseOffer {q : Fifo T} {action : Action T} {items : List T} (call : action.offers = some items)
      (idle : q.offer = none) (full : capacity < q.items.length + items.length) :
      Step capacity q (action, .refused) q
  /-- As much as is free now, at most `maxLen`. -/
  | offerFallible {q : Fifo T} (idle : q.offer = none) (reader : List (UserBuf T)) (maxLen : Nat) :
      Step capacity q (.writeFallible reader maxLen, .quiet)
        { q with
          offer := some ⟨(UserBuf.units reader).take (min (capacity - q.items.length) maxLen), true⟩ }
  | storeItem (q : Fifo T) : Step capacity q (.storeItem, .quiet) q
  | enqueue {q : Fifo T} {o : Offer T} (call : q.offer = some o)
      (fits : q.items.length + o.items.length ≤ capacity) :
      Step capacity q (.endWrite, .enqueued o.items)
        { q with items := q.items ++ o.items, offer := none }
  | offerFaults {q : Fifo T} {o : Offer T} (call : q.offer = some o) (fallible : o.fallible = true) :
      Step capacity q (.endWrite, .faulted) { q with offer := none }
  | demand {q : Fifo T} {action : Action T} {count : Nat} (call : action.demands = some count)
      (idle : q.demand = none) (enough : count ≤ q.items.length) :
      Step capacity q (action, .quiet) { q with demand := some ⟨count, false⟩ }
  | refuseDemand {q : Fifo T} {action : Action T} {count : Nat} (call : action.demands = some count)
      (idle : q.demand = none) (few : q.items.length < count) : Step capacity q (action, .refused) q
  /-- As much as there is now, at most `maxLen`. -/
  | demandFallible {q : Fifo T} (idle : q.demand = none) (writer : List (UserBuf Unit)) (maxLen : Nat) :
      Step capacity q (.readFallible writer maxLen, .quiet)
        { q with
          demand := some ⟨min (min q.items.length maxLen) (UserBuf.units writer).length, true⟩ }
  | skip {q : Fifo T} {count : Nat} (idle : q.demand = none) (enough : count ≤ q.items.length) :
      Step capacity q (.skip count, .quiet) { q with demand := some ⟨count, false⟩ }
  | loadItem (q : Fifo T) : Step capacity q (.loadItem, .quiet) q
  | dequeue {q : Fifo T} {d : Demand} (call : q.demand = some d) (enough : d.count ≤ q.items.length) :
      Step capacity q (.endRead, .dequeued (q.items.take d.count))
        { q with items := q.items.drop d.count, demand := none }
  | demandFaults {q : Fifo T} {d : Demand} (call : q.demand = some d) (fallible : d.fallible = true) :
      Step capacity q (.endRead, .faulted) { q with demand := none }

end Fifo

def Event.produced : Event T → List T
  | .enqueued items => items
  | _ => []

def Event.consumed : Event T → List T
  | .dequeued items => items
  | _ => []

variable {labels : List (Action T × Event T)}

/-- In a queue, what came out and what is left are what came in, in order. -/
theorem Fifo.Step.ledger {capacity : Nat} {q q' : Fifo T} (run : Run (Fifo.Step capacity) q labels q') :
    q.items ++ labels.flatMap (·.2.produced) = labels.flatMap (·.2.consumed) ++ q'.items := by
  induction run with
  | nil q => simp
  | cons first _ ih =>
    rw [List.flatMap_cons, List.flatMap_cons, List.append_assoc, ← ih]
    cases first with
    | enqueue => exact (List.append_assoc _ _ _).symm
    | dequeue =>
      dsimp only [Event.produced, Event.consumed]
      rw [← List.append_assoc (List.take _ _), List.take_append_drop, List.nil_append]
    | _ => rfl

open List

/-! ### What the buffer holds -/

namespace RingBuffer

/-- The counters and slots of a buffer into which `log` was written, and from which all before
`from_` was taken. -/
structure Holds (rb : RingBuffer T) (log : List T) (from_ : Nat) : Prop where
  tail : rb.tail = log.length % 2 ^ 64
  head : rb.head = from_ % 2 ^ 64
  order : from_ ≤ log.length
  room : log.length ≤ from_ + rb.capacity
  window : Ring.Window rb.segment log from_

variable (rb : RingBuffer T)

theorem capacity_pos : 0 < rb.capacity := by
  obtain ⟨k, _, eq⟩ := rb.power
  rw [eq]
  exact Nat.two_pow_pos k

theorem capacity_lt : rb.capacity < 2 ^ 64 := by
  obtain ⟨k, lt, eq⟩ := rb.power
  rw [eq]
  exact Nat.pow_lt_pow_right (by decide) lt

/-- The low bits of a wrapped counter are those of the true one. -/
theorem offset_mod (count : Nat) : rb.offset (count % 2 ^ 64) = count % rb.capacity := by
  obtain ⟨k, lt, eq⟩ := rb.power
  rw [offset, eq, and_two_pow_sub_one_eq_mod, mod_mod_of_dvd _ (pow_dvd_pow 2 lt.le)]

/-- The distance of two wrapped counters is that of the true ones. -/
theorem wrappingSub_mod {a b : Nat} (le : b ≤ a) (near : a < b + 2 ^ 64) :
    wrappingSub (a % 2 ^ 64) (b % 2 ^ 64) = a - b := by
  unfold wrappingSub
  omega

theorem wrappingAdd_mod (a b : Nat) : wrappingAdd (a % 2 ^ 64) b = (a + b) % 2 ^ 64 := by
  unfold wrappingAdd
  rw [mod_add_mod]

namespace Holds

variable {rb : RingBuffer T} {log : List T} {from_ : Nat}

section

variable (h : rb.Holds log from_)

include h

theorem len : rb.len = log.length - from_ := by
  have := rb.capacity_lt
  rw [RingBuffer.len, h.tail, h.head, wrappingSub_mod h.order (by have := h.room; omega)]

theorem freeLen : rb.freeLen = .ok (rb.capacity - (log.length - from_)) := by
  have := h.room
  rw [RingBuffer.freeLen, h.len, if_neg (by omega)]

theorem offset_tail : rb.offset rb.tail = log.length % rb.capacity := by
  rw [h.tail, rb.offset_mod]

theorem offset_head : rb.offset rb.head = from_ % rb.capacity := by
  rw [h.head, rb.offset_mod]

theorem contents : rb.contents = log.drop from_ := by
  have slots : (range (log.length - from_)).map
      (fun i => rb.segment[rb.offset (wrappingAdd rb.head i)]?) = (log.drop from_).map some := by
    refine ext_getElem (by simp) fun i hi _ => ?_
    rw [length_map, length_range] at hi
    rw [getElem_map, getElem_map, getElem_range, h.head, wrappingAdd_mod, rb.offset_mod,
      ← rb.size, h.window _ (le_add_right _ _) (by omega), getElem_drop]
    exact getElem?_eq_getElem (by omega)
  calc rb.contents = ((range (log.length - from_)).map
          (fun i => rb.segment[rb.offset (wrappingAdd rb.head i)]?)).filterMap id := by
        rw [RingBuffer.contents, h.len, filterMap_map]
        rfl
    _ = log.drop from_ := by
        rw [slots]
        simp

end

end Holds

end RingBuffer

/-! ### Calls in progress -/

/-- A producer's call: what it still has to store goes to the slots after those it has stored, none of
which the consumer may look at. -/
inductive ProducerInv (rb : RingBuffer T) (log : List T) (from_ : Nat) :
    ProducerState T → Option (Offer T) → Prop
  | idle : ProducerInv rb log from_ .idle none
  | writing {call : Writing T} {stored : List T} {o : Offer T} (rest : List T) (tail : call.tail = rb.tail)
      (todo : call.todo = (Ring.positions rb.capacity (log.length + stored.length) rest.length).zip rest)
      (room : log.length + stored.length + rest.length ≤ from_ + rb.capacity)
      (window : Ring.Window rb.segment (log ++ stored) from_)
      (result : call.advance = some o.items.length ∧ stored ++ rest = o.items ∨
        call.advance = none ∧ o.fallible = true) :
      ProducerInv rb log from_ (.writing call stored) (some o)

/-- A consumer's call: it has loaded the next items of the log, and still has to load those after. -/
inductive ConsumerInv (rb : RingBuffer T) (log : List T) (from_ : Nat) :
    ConsumerState T → Option Demand → Prop
  | idle : ConsumerInv rb log from_ .idle none
  | reading {call : Reading} {loaded : List T} {d : Demand} (left : Nat) (head : call.head = rb.head)
      (todo : call.todo = Ring.positions rb.capacity (from_ + loaded.length) left)
      (inside : from_ + loaded.length + left ≤ log.length)
      (next : loaded = (log.drop from_).take loaded.length)
      (result : call.advance = some d.count ∧ loaded.length + left = d.count ∨
        call.advance = none ∧ d.fallible = true) :
      ConsumerInv rb log from_ (.reading call loaded) (some d)
  | skipping {head count : Nat} (start : head = rb.head) (inside : from_ + count ≤ log.length) :
      ConsumerInv rb log from_ (.skipping head count) (some ⟨count, false⟩)

namespace ProducerInv

variable {rb : RingBuffer T} {log : List T} {from_ : Nat} {p : ProducerState T} {offer : Option (Offer T)}

theorem offer_idle (h : ProducerInv rb log from_ .idle offer) : offer = none := by
  cases h
  rfl

/-- The producer does not notice that the consumer has taken more. -/
theorem advanceHead (h : ProducerInv rb log from_ p offer) (head len : Nat) {later : Nat}
    (le : from_ ≤ later) : ProducerInv (rb.advanceHead head len) log later p offer := by
  cases h with
  | idle => exact .idle
  | writing rest tail todo room window result =>
    exact .writing rest tail todo (room.trans (Nat.add_le_add_right le _)) (window.mono le) result

end ProducerInv

namespace ConsumerInv

variable {rb : RingBuffer T} {log : List T} {from_ : Nat} {c : ConsumerState T} {demand : Option Demand}

theorem demand_idle (h : ConsumerInv rb log from_ .idle demand) : demand = none := by
  cases h
  rfl

/-- The consumer does not notice that the producer stores items or adds them to the log. -/
theorem extend (h : ConsumerInv rb log from_ c demand) (rb' : RingBuffer T) (head : rb'.head = rb.head)
    (size : rb'.capacity = rb.capacity) (more : List T) :
    ConsumerInv rb' (log ++ more) from_ c demand := by
  cases h with
  | idle => exact .idle
  | reading left start todo inside next result =>
    refine .reading left (start.trans head.symm) (size ▸ todo) ?_ ?_ result
    · rw [length_append]
      omega
    rw [drop_append_of_le_length (by omega), take_append_of_le_length ?_]
    · exact next
    · rw [length_drop]
      omega
  | skipping start inside =>
    refine .skipping (start.trans head.symm) ?_
    rw [length_append]
    omega

end ConsumerInv

variable {items : List T}

namespace Producer

variable {rb : RingBuffer T} {log : List T} {from_ : Nat}

theorem slots_of_le {start : Nat} (fits : start % rb.capacity + items.length ≤ rb.capacity) :
    slots (start % rb.capacity) items = (positions rb.capacity start items.length).zip items := by
  rw [slots, positions_of_le fits]

theorem slots_append {start : Nat} {first second : List T} (fits : start % rb.capacity + first.length ≤ rb.capacity)
    (parts : start % rb.capacity + first.length = rb.capacity ∨ second = [])
    (lap : first.length + second.length ≤ rb.capacity) :
    slots (start % rb.capacity) first ++ slots 0 second =
      (positions rb.capacity start (first ++ second).length).zip (first ++ second) := by
  rw [slots, slots, length_append,
    positions_of_parts fits (parts.imp_right (congrArg length)) lap, zip_append (by simp)]

section

variable (h : rb.Holds log from_)

include h

/-- A call whose items are laid out from the tail on. -/
theorem start {todo : List (Nat × T)} {advance : Option Nat} {o : Offer T}
    (laid : todo = (positions rb.capacity log.length items.length).zip items)
    (room : log.length + items.length ≤ from_ + rb.capacity)
    (result : advance = some o.items.length ∧ items = o.items ∨ advance = none ∧ o.fallible = true) :
    ProducerInv rb log from_ (.writing ⟨rb.tail, todo, advance⟩ []) (some o) := by
  refine .writing items rfl laid ?_ ?_ result
  · exact room
  · rw [append_nil]
    exact h.window

theorem push_ok {item : T} {r : Option (Writing T)} (returns : push rb item = .ok r) :
    (r = none ∧ rb.capacity < (log.length - from_) + 1) ∨
      ∃ w, r = some w ∧ (log.length - from_) + 1 ≤ rb.capacity ∧
        ProducerInv rb log from_ (.writing w []) (some ⟨[item], false⟩) := by
  rw [push, h.freeLen, ok_bind, h.offset_tail] at returns
  split at returns
  · cases returns
    exact .inl ⟨rfl, by omega⟩
  · cases returns
    refine .inr ⟨_, rfl, by omega, start h (slots_of_le ?_) ?_ (.inl ⟨rfl, rfl⟩)⟩
    · exact mod_lt _ rb.capacity_pos
    · rw [length_singleton]
      omega

theorem pushSlice_ok {r : Option (Writing T)} (returns : pushSlice rb items = .ok r) :
    (r = none ∧ rb.capacity < (log.length - from_) + items.length) ∨
      ∃ w, r = some w ∧ (log.length - from_) + items.length ≤ rb.capacity ∧
        ProducerInv rb log from_ (.writing w []) (some ⟨items, false⟩) := by
  have := h.room
  have slot := mod_lt log.length rb.capacity_pos
  rw [pushSlice, h.freeLen, ok_bind, h.offset_tail] at returns
  split at returns
  · cases returns
    exact .inl ⟨rfl, by omega⟩
  · cases returns
    have room : log.length + items.length ≤ from_ + rb.capacity := by omega
    refine .inr ⟨_, rfl, by omega, start h ?_ room (.inl ⟨rfl, rfl⟩)⟩
    split
    · have count : (items.take (rb.capacity - log.length % rb.capacity)).length =
          rb.capacity - log.length % rb.capacity := length_take_of_le (by omega)
      have total := congrArg length (take_append_drop (rb.capacity - log.length % rb.capacity) items)
      rw [length_append] at total
      rw [slots_append (by omega) (.inl (by omega)) (by omega), take_append_drop]
    · exact slots_of_le (by omega)

theorem writeFallibleWithMaxLen_ok {reader : List (UserBuf T)} {maxLen : Nat} {w : Writing T}
    (returns : writeFallibleWithMaxLen rb reader maxLen = .ok w) : ProducerInv rb log from_ (.writing w [])
      (some ⟨(units reader).take (min (rb.capacity - (log.length - from_)) maxLen), true⟩) := by
  have := h.room
  have slot := mod_lt log.length rb.capacity_pos
  rw [writeFallibleWithMaxLen, h.freeLen, ok_bind, h.offset_tail] at returns
  generalize limit : min (rb.capacity - (log.length - from_)) maxLen = freeLen at returns ⊢
  dsimp only at returns
  split at returns
  · next wraps =>
    have first := length_copyAll_le reader (rb.capacity - log.length % rb.capacity)
    split at returns
    · cases returns
      exact start h (slots_of_le (by omega)) (by omega) (.inr ⟨rfl, rfl⟩)
    · next ok =>
      cases returns
      have le : rb.capacity - log.length % rb.capacity ≤ freeLen := by omega
      obtain ⟨parts, whole⟩ := copyAll_parts le (Bool.eq_true_of_not_eq_false ok)
      generalize copyAll reader (rb.capacity - log.length % rb.capacity) = one at *
      have second := length_copyAll_le one.left (freeLen - (rb.capacity - log.length % rb.capacity))
      refine start h (slots_append (by omega) (parts.imp_left fun full => by omega) (by omega)) ?_ ?_
      · rw [length_append]
        omega
      split
      · next done =>
        refine .inl ⟨?_, whole done⟩
        rw [← whole done, length_append]
      · exact .inr ⟨rfl, rfl⟩
  · cases returns
    have all := length_copyAll_le reader freeLen
    refine start h (slots_of_le (by omega)) (by omega) ?_
    split
    · next done =>
      obtain ⟨copied, -⟩ := copyAll_done done
      rw [copied]
      exact .inl ⟨rfl, rfl⟩
    · exact .inr ⟨rfl, rfl⟩

end

end Producer

variable {count : Nat}

namespace Consumer

variable {rb : RingBuffer T} {log : List T} {from_ : Nat}

/-- A call that reads the slots from the head on. -/
theorem start {todo : List Nat} {advance : Option Nat} {d : Demand} (laid : todo = positions rb.capacity from_ count)
    (inside : from_ + count ≤ log.length)
    (result : advance = some d.count ∧ count = d.count ∨ advance = none ∧ d.fallible = true) :
    ConsumerInv rb log from_ (.reading ⟨rb.head, todo, advance⟩ []) (some d) := by
  refine .reading count rfl laid inside rfl ?_
  rw [length_nil, zero_add]
  exact result

variable (h : rb.Holds log from_)
include h

theorem pop_ok :
    (pop rb = none ∧ log.length - from_ < 1) ∨ ∃ r, pop rb = some r ∧ 1 ≤ log.length - from_ ∧
        ConsumerInv rb log from_ (.reading r []) (some ⟨1, false⟩) := by
  rw [pop, h.len, h.offset_head]
  split
  · exact .inl ⟨rfl, by omega⟩
  · have inside : from_ + 1 ≤ log.length := by omega
    exact .inr ⟨_, rfl, by omega, start rfl inside (.inl ⟨rfl, rfl⟩)⟩

theorem popSlice_ok (nitems : Nat) :
    (popSlice rb nitems = none ∧ log.length - from_ < nitems) ∨
      ∃ r, popSlice rb nitems = some r ∧ nitems ≤ log.length - from_ ∧
        ConsumerInv rb log from_ (.reading r []) (some ⟨nitems, false⟩) := by
  have := h.room
  have := h.order
  have slot := mod_lt from_ rb.capacity_pos
  rw [popSlice, h.len, h.offset_head]
  split
  · exact .inl ⟨rfl, by omega⟩
  have inside : from_ + nitems ≤ log.length := by omega
  refine .inr ⟨_, rfl, by omega, start ?_ inside (.inl ⟨rfl, rfl⟩)⟩
  split
  · rw [← positions_of_parts (by omega) (.inl (by omega)) (by omega), add_sub_of_le (by omega)]
  · next fits => exact (positions_of_le (Nat.le_of_not_lt fits)).symm

theorem readFallibleWithMaxLen_ok (writer : List (UserBuf Unit)) (maxLen : Nat) :
    ConsumerInv rb log from_ (.reading (readFallibleWithMaxLen rb writer maxLen) [])
      (some ⟨min (min (log.length - from_) maxLen) (units writer).length, true⟩) := by
  have := h.room
  have := h.order
  have slot := mod_lt from_ rb.capacity_pos
  rw [readFallibleWithMaxLen, h.len, h.offset_head]
  generalize limit : min (log.length - from_) maxLen = len
  dsimp only
  split
  · next wraps =>
    have first := length_copyAll_le writer (rb.capacity - from_ % rb.capacity)
    split
    · exact start (positions_of_le (by omega)).symm (by omega) (.inr ⟨rfl, rfl⟩)
    · next ok =>
      have le : rb.capacity - from_ % rb.capacity ≤ len := by omega
      obtain ⟨parts, whole⟩ := copyAll_parts le (Bool.eq_true_of_not_eq_false ok)
      generalize copyAll writer (rb.capacity - from_ % rb.capacity) = one at *
      have second := length_copyAll_le one.left (len - (rb.capacity - from_ % rb.capacity))
      have parts : from_ % rb.capacity + one.units.length = rb.capacity ∨ _ :=
        parts.imp (fun full => by omega) (congrArg length)
      refine start (positions_of_parts (by omega) parts (by omega)).symm (by omega) ?_
      split
      · next done =>
        have count := congrArg length (whole done)
        rw [length_append, length_take] at count
        exact .inl ⟨congrArg some count, count⟩
      · exact .inr ⟨rfl, rfl⟩
  · have all := length_copyAll_le writer len
    refine start (positions_of_le (by omega)).symm (by omega) ?_
    split
    · next done =>
      obtain ⟨copied, -⟩ := copyAll_done done
      have count := congrArg length copied
      rw [length_take] at count
      exact .inl ⟨congrArg some count, count⟩
    · exact .inr ⟨rfl, rfl⟩

end Consumer

/-! ### One step -/

/-- The queue `q` that a state stands for. -/
structure System.Inv (capacity : Nat) (s : System T) (q : Fifo T) (log : List T) (from_ : Nat) :
    Prop where
  size : s.rb.capacity = capacity
  holds : s.rb.Holds log from_
  items : q.items = log.drop from_
  producer : ProducerInv s.rb log from_ s.producer q.offer
  consumer : ConsumerInv s.rb log from_ s.consumer q.demand

variable {action : Action T}

namespace System.Inv

variable {capacity : Nat} {s t : System T} {q : Fifo T} {log : List T} {from_ : Nat} {event : Event T}

theorem length_items (h : Inv capacity s q log from_) : q.items.length = log.length - from_ := by
  rw [h.items, length_drop]

/-- What a step has to show. -/
def Simulated (capacity : Nat) (q : Fifo T) (action : Action T) (event : Event T) (t : System T) : Prop :=
  ∃ q' log' from', Fifo.Step capacity q (action, event) q' ∧ Inv capacity t q' log' from'

section

variable (h : Inv capacity s q log from_)

include h

theorem startWrite {call : Res (Option (Writing T))} (offers : action.offers = some items)
    (spec : ∀ r, call = .ok r → (r = none ∧ s.rb.capacity < (log.length - from_) + items.length) ∨
      ∃ w, r = some w ∧ (log.length - from_) + items.length ≤ s.rb.capacity ∧
        ProducerInv s.rb log from_ (.writing w []) (some ⟨items, false⟩))
    (returns : s.startWrite call = .ok (t, event)) : Simulated capacity q action event t := by
  obtain ⟨rb, _ | ⟨w, stored⟩, consumer⟩ := s
  · have idle := h.producer.offer_idle
    obtain ⟨r, eq, returns⟩ := bind_ok.mp returns
    rcases spec r eq with ⟨rfl, full⟩ | ⟨w, rfl, fits, writing⟩
    · cases returns
      refine ⟨q, log, from_, .refuseOffer offers idle ?_, h⟩
      rw [h.length_items, ← h.size]
      exact full
    · cases returns
      refine ⟨_, log, from_, .offer offers idle ?_, h.size, h.holds, h.items, writing, h.consumer⟩
      rw [h.length_items, ← h.size]
      exact fits
  · cases returns

theorem startWriteFallible {reader : List (UserBuf T)} {maxLen : Nat}
    (returns : s.startWrite (some <$> writeFallibleWithMaxLen s.rb reader maxLen) = .ok (t, event)) :
    Simulated capacity q (.writeFallible reader maxLen) event t := by
  obtain ⟨rb, _ | ⟨w, stored⟩, consumer⟩ := s
  · have idle := h.producer.offer_idle
    obtain ⟨r, eq, returns⟩ := bind_ok.mp returns
    rw [map_eq_pure_bind] at eq
    obtain ⟨w, copied, wrapped⟩ := bind_ok.mp eq
    cases wrapped
    cases returns
    have writing := writeFallibleWithMaxLen_ok h.holds copied
    rw [h.size, ← h.length_items] at writing
    exact ⟨_, log, from_, .offerFallible idle reader maxLen, h.size, h.holds, h.items, writing, h.consumer⟩
  · cases returns

theorem storeItem (returns : s.storeItem = .ok (t, event)) : Simulated capacity q .storeItem event t := by
  obtain ⟨rb, _ | ⟨⟨tail, _ | ⟨⟨slot, item⟩, todo⟩, advance⟩, stored⟩, consumer⟩ := s
  · cases returns
  · cases returns
  · cases returns
    obtain ⟨size, holds, items, producer, reads⟩ := h
    generalize ho : q.offer = offer at producer
    cases producer with
    | writing rest tail todo room window result =>
      obtain _ | ⟨next, rest⟩ := rest
      · cases todo
      dsimp only at todo tail result room window
      rw [length_cons, positions_succ, zip_cons_cons, cons.injEq] at todo
      obtain ⟨⟨rfl, rfl⟩, todo⟩ := todo
      rw [length_cons] at room
      have stored' : Ring.Window (rb.set ((log.length + stored.length) % rb.capacity) item).segment
          (log ++ (stored ++ [item])) from_ := by
        have := window.write (by rw [length_append, rb.size]; omega) item
        rw [length_append, rb.size, append_assoc] at this
        exact this
      refine ⟨q, log, from_, .storeItem q, size, ⟨holds.tail, holds.head, holds.order, holds.room, stored'.left⟩,
        items, ?_, ?_⟩
      · rw [ho]
        refine .writing rest tail ?_ ?_ stored' ?_
        · rw [length_append]
          exact todo
        · rw [length_append, length_singleton]
          show _ ≤ from_ + rb.capacity
          omega
        · rw [append_assoc]
          exact result
      · have := reads.extend (rb.set ((log.length + stored.length) % rb.capacity) item) rfl rfl []
        rwa [append_nil] at this

theorem endWrite (returns : s.endWrite = .ok (t, event)) : Simulated capacity q .endWrite event t := by
  obtain ⟨rb, _ | ⟨⟨tail, _ | ⟨_, _⟩, _ | len⟩, stored⟩, consumer⟩ := s <;> try cases returns
  · -- the user side failed
    obtain ⟨size, holds, items, producer, reads⟩ := h
    generalize ho : q.offer = offer at producer
    cases producer with
    | writing rest tail todo room window result =>
      rcases result with ⟨done, -⟩ | ⟨-, fallible⟩
      · cases done
      · exact ⟨_, log, from_, .offerFaults ho fallible, size, holds, items, .idle, reads⟩
  obtain ⟨size, holds, items, producer, reads⟩ := h
  generalize ho : q.offer = offer at producer
  cases producer with
  | @writing _ _ o rest start todo room window result =>
    have nothing : rest = [] := by
      obtain _ | ⟨next, rest⟩ := rest
      · rfl
      · cases todo
    subst nothing
    rcases result with ⟨done, whole⟩ | ⟨failed, -⟩
    · rw [append_nil] at whole
      subst whole
      cases done
      have order := holds.order
      have length : q.items.length = log.length - from_ := by rw [items, length_drop]
      refine ⟨_, log ++ o.items, from_, .enqueue ho ?_, size, ⟨?_, holds.head, ?_, ?_, window⟩, ?_, .idle,
        reads.extend (rb.advanceTail tail o.items.length) rfl rfl _⟩
      · omega
      · show wrappingAdd tail o.items.length = _
        dsimp only at start
        rw [start, holds.tail, wrappingAdd_mod, length_append]
      · rw [length_append]
        omega
      · rw [length_append]
        exact room
      · rw [items, drop_append_of_le_length order]
    · cases failed

theorem startRead {call : Option Reading} (demands : action.demands = some count)
    (spec : (call = none ∧ log.length - from_ < count) ∨
      ∃ r, call = some r ∧ count ≤ log.length - from_ ∧
        ConsumerInv s.rb log from_ (.reading r []) (some ⟨count, false⟩))
    (returns : s.startRead call = .ok (t, event)) : Simulated capacity q action event t := by
  obtain ⟨rb, producer, _ | _ | _⟩ := s
  · have idle := h.consumer.demand_idle
    have length := h.length_items
    rcases spec with ⟨rfl, few⟩ | ⟨r, rfl, enough, reading⟩
    · cases returns
      exact ⟨q, log, from_, .refuseDemand demands idle (length ▸ few), h⟩
    · cases returns
      exact ⟨_, log, from_, .demand demands idle (length ▸ enough), h.size, h.holds, h.items, h.producer, reading⟩
  · cases returns
  · cases returns

theorem startReadFallible {writer : List (UserBuf Unit)} {maxLen : Nat}
    (returns : s.startRead (some (readFallibleWithMaxLen s.rb writer maxLen)) = .ok (t, event)) :
    Simulated capacity q (.readFallible writer maxLen) event t := by
  obtain ⟨rb, producer, _ | _ | _⟩ := s
  · have idle := h.consumer.demand_idle
    cases returns
    have reading := readFallibleWithMaxLen_ok h.holds writer maxLen
    rw [← h.length_items] at reading
    exact ⟨_, log, from_, .demandFallible idle writer maxLen, h.size, h.holds, h.items, h.producer, reading⟩
  · cases returns
  · cases returns

theorem startSkip (returns : s.startSkip count = .ok (t, event)) : Simulated capacity q (.skip count) event t := by
  obtain ⟨rb, producer, _ | _ | _⟩ := s
  · have idle := h.consumer.demand_idle
    have length := h.length_items
    have order := h.holds.order
    obtain ⟨head, loaded, returns⟩ := bind_ok.mp returns
    rw [skip, h.holds.len] at loaded
    split at loaded
    · cases loaded
    · next enough =>
      cases loaded
      cases returns
      refine ⟨_, log, from_, .skip idle (by omega), h.size, h.holds, h.items, h.producer, .skipping rfl ?_⟩
      omega
  · cases returns
  · cases returns

theorem loadItem (returns : s.loadItem = .ok (t, event)) : Simulated capacity q .loadItem event t := by
  obtain ⟨rb, producer, _ | ⟨⟨head, _ | ⟨slot, todo⟩, advance⟩, loaded⟩ | _⟩ := s <;> try cases returns
  obtain ⟨size, holds, items, producer, reads⟩ := h
  generalize ho : q.demand = demand at reads
  cases reads with
  | @reading _ _ d left head todo inside next result =>
    obtain _ | left := left
    · cases todo
    dsimp only at todo head result
    rw [positions_succ, cons.injEq] at todo
    obtain ⟨rfl, todo⟩ := todo
    have lt : from_ + loaded.length < log.length := by omega
    have item : rb.segment[(from_ + loaded.length) % rb.capacity]? = some log[from_ + loaded.length] := by
      rw [← rb.size]
      exact (holds.window _ (le_add_right _ _) lt).trans (getElem?_eq_getElem lt)
    rw [System.loadItem] at returns
    dsimp only at returns
    rw [item] at returns
    cases returns
    refine ⟨q, log, from_, .loadItem q, size, holds, items, producer, ?_⟩
    rw [ho]
    refine .reading left head ?_ ?_ ?_ ?_
    · rw [length_append]
      exact todo
    · rw [length_append, length_singleton]
      omega
    · rw [length_append, length_singleton, take_add_one, ← next, getElem?_drop, getElem?_eq_getElem (by omega)]
      rfl
    · rw [length_append, length_singleton, add_assoc, add_comm 1]
      exact result

/-- The consumer leaves the queue with its first `count` items taken. -/
theorem take {fallible : Bool} (call : q.demand = some ⟨count, fallible⟩) (inside : from_ + count ≤ log.length) :
    ∃ q', Fifo.Step capacity q (.endRead, .dequeued ((log.drop from_).take count)) q' ∧
      Inv capacity ⟨s.rb.advanceHead s.rb.head count, s.producer, .idle⟩ q' log (from_ + count) := by
  have room := h.holds.room
  refine ⟨{ q with items := q.items.drop count, demand := none }, ?_, h.size, ⟨h.holds.tail, ?_, inside, ?_, ?_⟩,
    ?_, h.producer.advanceHead _ _ (le_add_right _ _), .idle⟩
  · rw [← h.items]
    refine .dequeue call ?_
    rw [h.length_items]
    show count ≤ _
    omega
  · show wrappingAdd s.rb.head count = _
    rw [h.holds.head, wrappingAdd_mod]
  · show log.length ≤ from_ + count + s.rb.capacity
    omega
  · exact h.holds.window.mono (le_add_right _ _)
  · rw [h.items, drop_drop]

theorem endRead (returns : s.endRead = .ok (t, event)) : Simulated capacity q .endRead event t := by
  have reads := h.consumer
  generalize ho : q.demand = demand at reads
  obtain ⟨rb, producer, _ | ⟨⟨head, _ | ⟨slot, todo⟩, _ | len⟩, loaded⟩ | ⟨head, count⟩⟩ :=
    s <;> try cases returns
  · -- the user side failed
    cases reads with
    | reading left head todo inside next result =>
      rcases result with ⟨done, -⟩ | ⟨-, fallible⟩
      · cases done
      · exact ⟨_, log, from_, .demandFaults ho fallible, h.size, h.holds, h.items, h.producer, .idle⟩
  · cases reads with
    | @reading _ _ d left head todo inside next result =>
      have nothing : left = 0 := by
        have := congrArg length todo
        rw [length_positions] at this
        exact this.symm
      rcases result with ⟨done, whole⟩ | ⟨failed, -⟩
      · cases done
        rw [nothing, add_zero] at inside whole
        obtain ⟨q', step, inv⟩ := h.take ho (by omega)
        rw [← whole, ← next] at step
        dsimp only at head
        rw [head]
        exact ⟨q', log, _, step, inv⟩
      · cases failed
  · cases reads with
    | skipping start inside =>
      obtain ⟨q', step, inv⟩ := h.take ho inside
      dsimp only at start ⊢
      subst start
      rw [h.holds.contents]
      exact ⟨q', log, _, step, inv⟩

/-- Every step of the parties is a step of the queue. -/
theorem exec (returns : s.exec action = .ok (t, event)) : Simulated capacity q action event t := by
  cases action with
  | push item => exact h.startWrite rfl (fun _ => push_ok h.holds) returns
  | pushSlice items => exact h.startWrite rfl (fun _ => pushSlice_ok h.holds) returns
  | writeFallible reader maxLen => exact h.startWriteFallible returns
  | storeItem => exact h.storeItem returns
  | endWrite => exact h.endWrite returns
  | pop => exact h.startRead rfl (pop_ok h.holds) returns
  | popSlice nitems => exact h.startRead rfl (popSlice_ok h.holds nitems) returns
  | readFallible writer maxLen => exact h.startReadFallible returns
  | skip count => exact h.startSkip returns
  | loadItem => exact h.loadItem returns
  | endRead => exact h.endRead returns

end

end System.Inv

theorem System.Inv.new (segment : List T) (power : ∃ k < 64, segment.length = 2 ^ k) :
    Inv segment.length (System.new (RingBuffer.new segment power)) Fifo.empty [] 0 where
  size := rfl
  holds := ⟨rfl, rfl, le_rfl, zero_le _, fun _ _ before => absurd before (not_lt_zero _)⟩
  items := rfl
  producer := .idle
  consumer := .idle

theorem System.Inv.run {capacity : Nat} {s t : System T} {q : Fifo T} {log : List T} {from_ : Nat}
    (run : Run System.Step s labels t) (h : Inv capacity s q log from_) :
    ∃ q' log' from', Run (Fifo.Step capacity) q labels q' ∧ Inv capacity t q' log' from' := by
  induction run generalizing q log from_ with
  | nil => exact ⟨q, log, from_, .nil q, h⟩
  | cons first _ ih =>
    obtain ⟨mid, log', from', step, inv⟩ := h.exec first
    obtain ⟨q', log'', from'', steps, inv'⟩ := ih inv
    exact ⟨q', log'', from'', .cons step steps, inv'⟩

/-- Whatever the producer and the consumer do, in any order of their steps, the buffer is a queue of
its capacity: the same calls have the same results there, the buffer holds what the queue holds, and
what was consumed and what is left are what was produced, in order. -/
theorem refines_fifo {segment : List T} {power : ∃ k < 64, segment.length = 2 ^ k}
    {labels : List (Action T × Event T)} {s : System T}
    (run : Run System.Step (System.new (RingBuffer.new segment power)) labels s) :
    ∃ q, Run (Fifo.Step segment.length) Fifo.empty labels q ∧ s.rb.contents = q.items ∧
      s.rb.len = q.items.length ∧ s.rb.len ≤ s.rb.capacity ∧ s.rb.capacity = segment.length ∧
      s.rb.freeLen = .ok (s.rb.capacity - s.rb.len) ∧
      labels.flatMap (·.2.produced) = labels.flatMap (·.2.consumed) ++ s.rb.contents := by
  obtain ⟨q, log, from_, steps, inv⟩ := System.Inv.run run (System.Inv.new segment power)
  have contents : s.rb.contents = q.items := by rw [inv.holds.contents, inv.items]
  have len : s.rb.len = log.length - from_ := inv.holds.len
  refine ⟨q, steps, contents, ?_, ?_, inv.size, ?_, ?_⟩
  · rw [len, inv.length_items]
  · have := inv.holds.room
    omega
  · rw [inv.holds.freeLen, len]
  · rw [contents]
    exact Fifo.Step.ledger steps

/-- A buffer of two: the second call passes its end, and a read from it faults. -/
def wrapping : List (Action Nat × Event Nat) :=
  [(.push 1, .quiet), (.storeItem, .quiet), (.endWrite, .enqueued [1]), (.pop, .quiet),
    (.pushSlice [2], .quiet), (.loadItem, .quiet), (.storeItem, .quiet), (.endRead, .dequeued [1]),
    (.endWrite, .enqueued [2]), (.pushSlice [3, 4], .refused), (.push 3, .quiet), (.storeItem, .quiet),
    (.endWrite, .enqueued [3]), (.readFallible [⟨[(), ()], some 1⟩] 8, .quiet), (.loadItem, .quiet),
    (.endRead, .faulted)]

theorem refines_fifo_wrapping :
    ∃ s q, Run System.Step (System.new (RingBuffer.new [0, 0] ⟨1, by decide, rfl⟩)) wrapping s ∧
      Run (Fifo.Step 2) Fifo.empty wrapping q ∧ s.rb.contents = q.items ∧ q.items = [2, 3] := by
  obtain ⟨s, returns, left⟩ := exists_ok_of_map
    (x := wrapping.foldlM System.follow (System.new (new [0, 0] ⟨1, by decide, rfl⟩)))
    (f := fun s => s.rb.contents) (b := [2, 3]) (by decide +kernel)
  have run : Run System.Step (System.new (new [0, 0] ⟨1, by decide, rfl⟩)) wrapping s :=
    .of_foldlM (fun _ _ _ _ => System.step_of_follow) returns
  obtain ⟨q, steps, contents, -⟩ := refines_fifo run
  exact ⟨s, q, run, steps, contents, contents ▸ left⟩

end OmegaOsx.Util
