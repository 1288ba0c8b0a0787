import OmegaOsx.MlsDisk.BitMap

/-!
# Keys and range queries

A record key is a block address in disguise: it has the bytes, the order and the arithmetic of one.
A `RangeQueryCtx` asks for the values of `numValues` consecutive keys and notes which of them it has.
-/

namespace OmegaOsx.MlsDisk

open BitMap List

/-- `BID_SIZE`, the size of a block address in bytes. -/
@[irreducible] def bidSize : Nat := 8

/-- A `Pod` type: its values are their bytes. -/
structure Pod (α : Type) where
  size : Nat
  asBytes : α → Bytes
  fromBytes : Bytes → α
  length_asBytes : ∀ a, (asBytes a).length = size
  fromBytes_asBytes : ∀ a, fromBytes (asBytes a) = a

/-- What the tree asks of its keys. Their size is that of a block address: this is how the size of a
record is computed, and so it is for every key type of the crate. -/
structure RecordKey (K : Type) [LinearOrder K] where
  pod : Pod K
  size_eq : pod.size = bidSize
  num : K → Nat
  num_lt_num : ∀ {a b}, num a < num b ↔ a < b
  /-- Addition of a number; it panics if there is no such key. -/
  add : K → Nat → Res K
  add_ok : ∀ {k n k'}, add k n = .ok k' ↔ num k' = num k + n

namespace RecordKey

variable {K : Type} [LinearOrder K] (key : RecordKey K)

def sub (a b : K) : Res Nat := checkedSub (key.num a) (key.num b)

variable {a b : K}

theorem num_le_num : key.num a ≤ key.num b ↔ a ≤ b := by
  rw [← not_lt, key.num_lt_num, not_lt]

theorem num_inj (h : key.num a = key.num b) : a = b :=
  le_antisymm (key.num_le_num.mp (le_of_eq h)) (key.num_le_num.mp (le_of_eq h.symm))

end RecordKey

/-- The context of a range query; the slots are numbered from `start`. -/
structure RangeQueryCtx (K V : Type) where
  start : K
  numValues : Nat
  completeTable : BitMap
  minUncompleted : Nat
  res : List (K × V)
  size : completeTable.length = numValues
  first_uncompleted : completeTable.findIdx (! ·) = minUncompleted

namespace RangeQueryCtx

variable {K V : Type} [LinearOrder K] (key : RecordKey K)

omit [LinearOrder K] in
theorem findIdx_replicate_false (n : Nat) : (replicate n false).findIdx (! ·) = 0 := by
  cases n with
  | zero => rfl
  | succ n => rfl

def new (start : K) (numValues : Nat) : RangeQueryCtx K V where
  start
  numValues
  completeTable := List.replicate numValues false
  minUncompleted := 0
  res := []
  size := List.length_replicate
  first_uncompleted := findIdx_replicate_false numValues

variable (ctx : RangeQueryCtx K V)

def isCompleted : Bool := ctx.minUncompleted = ctx.numValues

/-- The keys from the first slot still open to the last one. -/
def rangeUncompleted : Res (Option (K × K)) :=
  if ctx.isCompleted then .ok none
  else do
    let first ← key.add ctx.start ctx.minUncompleted
    match BitMap.lastZero ctx.completeTable with
    | none => .ok none
    | some nth => do
      let last ← key.add ctx.start nth
      .ok (some (first, last))

/-- `update_min_uncompleted`, on the table in which slot `nth` is already completed. -/
def updateMinUncompleted (table : BitMap) (minUncompleted numValues nth : Nat) : Nat :=
  if minUncompleted = nth then (BitMap.firstZero table nth).getD numValues else minUncompleted

theorem updateMinUncompleted_eq {table : BitMap} {m n nth : Nat} (size : table.length = n)
    (first : table.findIdx (! ·) = m) (inside : nth < table.length) (zero : table[nth] = false) :
    (table.set nth true).findIdx (! ·) = updateMinUncompleted (table.set nth true) m n nth := by
  unfold updateMinUncompleted
  split
  next eq =>
    subst size
    exact findIdx_set_self (first.trans eq)
  next ne =>
    -- the first zero is no later than this one
    have le : m ≤ nth := not_lt.mp fun later => by
      have one := ones_before first later
      rw [getElem?_eq_getElem inside, zero] at one
      cases one
    exact findIdx_set_of_lt first (lt_of_le_of_ne le ne)

/-- Completes one slot with its key and value; a slot is completed once. -/
def complete (k : K) (v : V) : Res (RangeQueryCtx K V) := do
  let nth ← key.sub k ctx.start
  if inside : nth < ctx.completeTable.length then
    match zero : ctx.completeTable[nth] with
    | true => .ok ctx
    | false =>
      let table := ctx.completeTable.set nth true
      .ok { ctx with
        completeTable := table
        minUncompleted := updateMinUncompleted table ctx.minUncompleted ctx.numValues nth
        res := ctx.res ++ [(k, v)]
        size := by rw [List.length_set]; exact ctx.size
        first_uncompleted := updateMinUncompleted_eq ctx.size ctx.first_uncompleted inside zero }
  else panicWith "bitmap index is out of range"

/-! ## What a context still asks for -/

/-- The key has a slot, and the slot is not completed. -/
def Open (k : K) : Prop :=
  ctx.start ≤ k ∧ ctx.completeTable[key.num k - key.num ctx.start]? = some false

instance (ctx : RangeQueryCtx K V) (k : K) : Decidable (ctx.Open key k) :=
  inferInstanceAs (Decidable (_ ∧ _))

/-- The key has a slot. -/
def HasSlot (k : K) : Prop :=
  ctx.start ≤ k ∧ key.num k - key.num ctx.start < ctx.numValues

variable {key}

/-- The range still to be searched covers the open slots and has only slots. -/
theorem rangeUncompleted_some {ctx : RangeQueryCtx K V} {first last : K}
    (h : ctx.rangeUncompleted key = .ok (some (first, last))) :
    (∀ k, ctx.Open key k → first ≤ k ∧ k ≤ last) ∧ ∀ k, first ≤ k → k ≤ last →
      ctx.HasSlot key k := by
  unfold rangeUncompleted at h
  split at h
  · cases h
  next more =>
    obtain ⟨first', addFirst, h⟩ := bind_ok.mp h
    cases lastZero : lastZero ctx.completeTable with
    | none =>
      rw [lastZero] at h
      cases h
    | some nth =>
      rw [lastZero] at h
      obtain ⟨last', addLast, h⟩ := bind_ok.mp h
      cases h
      have numFirst := key.add_ok.mp addFirst
      have numLast := key.add_ok.mp addLast
      obtain ⟨inside, latest⟩ := lastZero_some lastZero
      refine ⟨fun k opened => ?_, fun k lo hi => ?_⟩
      · have start := key.num_le_num.mpr opened.1
        have least : ctx.minUncompleted ≤ key.num k - key.num ctx.start := not_lt.mp fun before => by
          have one := ones_before ctx.first_uncompleted before
          rw [opened.2] at one
          cases one
        have most := latest _ opened.2
        exact ⟨key.num_le_num.mp (by omega), key.num_le_num.mp (by omega)⟩
      · have lo := key.num_le_num.mpr lo
        have hi := key.num_le_num.mpr hi
        rw [ctx.size] at inside
        exact ⟨key.num_le_num.mp (by omega), by omega⟩

/-- `ctx'` is `ctx` with the open slots of `records` filled. -/
structure Filled (key : RecordKey K) (ctx ctx' : RangeQueryCtx K V) (records : List (K × V)) : Prop where
  start : ctx'.start = ctx.start
  numValues : ctx'.numValues = ctx.numValues
  res : ctx'.res = ctx.res ++ records.filter fun r => ctx.Open key r.1
  still : ∀ k, ctx'.Open key k ↔ ctx.Open key k ∧ ∀ r ∈ records, r.1 ≠ k

variable {k : K} {records : List (K × V)}

theorem complete_run {ctx : RangeQueryCtx K V} (slot : ctx.HasSlot key k) (v : V) :
    ∃ ctx', ctx.complete key k v = .ok ctx' ∧ Filled key ctx ctx' [(k, v)] := by
  obtain ⟨start, inside⟩ := slot
  have start' := key.num_le_num.mpr start
  rw [← ctx.size] at inside
  unfold complete RecordKey.sub
  rw [checkedSub_of_le start', ok_bind, dif_pos inside]
  split
  next one =>
    -- the slot was completed before
    have closed : ∀ {k'}, ctx.Open key k' → k ≠ k' := by
      rintro k' ⟨-, zero⟩ rfl
      rw [getElem?_eq_getElem inside, one] at zero
      cases zero
    refine ⟨ctx, rfl, rfl, rfl, ?_, fun k' => ?_⟩
    · have : ¬ ctx.Open key k := fun opened => closed opened rfl
      simp [this]
    · exact ⟨fun opened => ⟨opened, by simpa using closed opened⟩, And.left⟩
  next zero =>
    have opened : ctx.Open key k := ⟨start, by rw [getElem?_eq_getElem inside, zero]⟩
    refine ⟨_, rfl, rfl, rfl, ?_, fun k' => ?_⟩
    · simp [opened]
    unfold Open
    by_cases eq : k = k'
    · subst eq
      rw [getElem?_set_self inside]
      simp
    have slots : ctx.start ≤ k' → key.num k - key.num ctx.start ≠ key.num k' - key.num ctx.start :=
      fun start'' same => eq (key.num_inj (by
        have := key.num_le_num.mpr start''
        omega))
    by_cases later : ctx.start ≤ k'
    · rw [getElem?_set_ne (slots later)]
      simp [eq]
    · simp [later]

theorem filled_nil (key : RecordKey K) (ctx : RangeQueryCtx K V) : Filled key ctx ctx [] :=
  ⟨rfl, rfl, (append_nil _).symm, fun _ => by simp⟩

theorem Filled.trans {ctx ctx' ctx'' : RangeQueryCtx K V} {xs ys : List (K × V)}
    (h : Filled key ctx ctx' xs) (h' : Filled key ctx' ctx'' ys)
    (distinct : ∀ x ∈ xs, ∀ y ∈ ys, x.1 ≠ y.1) : Filled key ctx ctx'' (xs ++ ys) := by
  refine ⟨h'.start.trans h.start, h'.numValues.trans h.numValues, ?_, fun k => ?_⟩
  · have same : ys.filter (fun r => ctx'.Open key r.1) = ys.filter fun r => ctx.Open key r.1 :=
      filter_congr fun y mem => by
        rw [decide_eq_decide, h.still]
        exact ⟨And.left, fun opened => ⟨opened, fun x mem' => distinct x mem' y mem⟩⟩
    rw [h'.res, h.res, same, append_assoc, filter_append]
  · rw [h'.still, h.still, and_assoc]
    simp only [mem_append, or_imp, forall_and]

theorem HasSlot.filled {ctx ctx' : RangeQueryCtx K V}
    (slot : ctx.HasSlot key k) (h : Filled key ctx ctx' records) : ctx'.HasSlot key k := by
  unfold HasSlot at slot ⊢
  rwa [h.start, h.numValues]

/-- Completing the slots of records with distinct keys. -/
theorem completeAll_run {ctx : RangeQueryCtx K V}
    (slots : ∀ r ∈ records, ctx.HasSlot key r.1) (distinct : records.Pairwise fun r r' => r.1 ≠ r'.1) :
    ∃ ctx', records.foldlM (fun ctx (k, v) => ctx.complete key k v) ctx = .ok ctx' ∧
      Filled key ctx ctx' records := by
  induction records generalizing ctx with
  | nil => exact ⟨ctx, rfl, filled_nil key ctx⟩
  | cons r rs ih =>
    obtain ⟨others, distinct⟩ := pairwise_cons.mp distinct
    obtain ⟨ctx1, one, filled⟩ := complete_run (slots r mem_cons_self) r.2
    obtain ⟨ctx', all, filled'⟩ := ih (fun r' mem => (slots r' (mem_cons_of_mem _ mem)).filled filled) distinct
    refine ⟨ctx', ?_, filled.trans filled' ?_⟩
    · exact bind_ok.mpr ⟨ctx1, one, all⟩
    · intro x mem y mem'
      rw [mem_singleton.mp mem]
      exact others y mem'

end RangeQueryCtx

end OmegaOsx.MlsDisk
