import OmegaOsx.MlsDisk.CryptoLogReopen

/-!
# Searching the append buffer

`searchDataNodes` goes through the entry queue and then through the node queue. After the first loop
only the end of the range is adjusted to the entries found: a range that starts inside the entry queue
takes too many nodes, and one behind it is looked up in the node queue under the same number.
-/

namespace OmegaOsx.MlsDisk

open Pieces SearchCtx List

variable {κ Key Iv Mac : Type} {env : MhtEnv κ Key Iv Mac} {hist : History Key Iv Mac}
  {s : MhtStorage κ} {queued : List Bytes} (b : AppendDataBuf Key Mac)

namespace AppendDataBuf

/-- What the two loops copy for `num` blocks from the `start`-th on. -/
def found (queued : List Bytes) (start num : Nat) : List Bytes :=
  let entries := (queued.drop start).take num
  let start' := if entries.length = 0 then start else 0
  entries ++ (b.nodeQueue.drop start').take (start + num - entries.length - start')

variable {b} {start num : Nat}

/-- Inside the entry queue, the nodes up to the number of the last block are copied. -/
theorem found_of_lt (lt : start < queued.length) (some : 0 < num) : b.found queued start num =
    (queued.drop start).take num ++ b.nodeQueue.take (start + num - min num (queued.length - start)) := by
  have entries : ((queued.drop start).take num).length = min num (queued.length - start) := by
    rw [length_take, length_drop]
  rw [found, entries, if_neg (by omega), drop_zero, Nat.sub_zero]

theorem found_of_ge (ge : queued.length ≤ start) : b.found queued start num = (b.nodeQueue.drop start).take num := by
  simp [found, drop_of_length_le ge]

/-- Whatever the nodes and the caller's buffer hold, what the loops copy are the blocks asked for. -/
def Finds (b : AppendDataBuf Key Mac) (queued : List Bytes) (nodes start num : Nat) : Prop :=
  ∀ nodeQueue buf : List Bytes, nodeQueue.length = nodes → buf.length = num →
    ({ b with nodeQueue }.found queued start num).length ≤ num ∧
      { b with nodeQueue }.found queued start num ++
        buf.drop ({ b with nodeQueue }.found queued start num).length = ((queued ++ nodeQueue).drop start).take num

section

variable {nodes : Nat} (within : start + num ≤ queued.length + nodes) (some : 0 < num)

include within some

theorem finds_iff_of_lt (lt : start < queued.length) :
    b.Finds queued nodes start num ↔ start = 0 ∨ nodes = 0 ∨ start + num = queued.length + nodes := by
  constructor
  · intro all
    obtain ⟨room, -⟩ := all (replicate nodes []) (replicate num []) length_replicate length_replicate
    rw [found_of_lt lt some] at room
    simp only [length_append, length_take, length_drop, length_replicate] at room
    omega
  · rintro right_ nodeQueue buf rfl rfl
    have same : nodeQueue.take (start + buf.length - min buf.length (queued.length - start)) =
        nodeQueue.take (buf.length - (queued.length - start)) := by
      rw [take_eq_take_iff]
      omega
    rw [found_of_lt lt some, same, drop_append_of_le_length lt.le, take_append, length_drop]
    simp only [length_append, length_take, length_drop]
    exact ⟨by omega, append_right_eq_self.mpr (drop_eq_nil_of_le (by omega))⟩

theorem finds_iff_of_ge (ge : queued.length ≤ start) : b.Finds queued nodes start num ↔ queued.length = 0 := by
  constructor
  · intro all
    -- a mark on the first node asked for is not found: the search takes a node further back, or none
    have bound : start - queued.length < nodes := by omega
    let marked : List Bytes := (replicate nodes []).set (start - queued.length) [0]
    obtain ⟨-, eq⟩ := all marked (replicate num []) (by simp [marked]) length_replicate
    rw [found_of_ge ge, drop_append, drop_of_length_le ge, nil_append] at eq
    have first := congrArg (·[0]?) eq
    by_contra positive
    have apart : start - queued.length ≠ start := by omega
    have wanted : ((marked.drop (start - queued.length)).take num)[0]? = Option.some [0] := by
      simp [marked, some, bound]
    dsimp only at first
    rw [wanted] at first
    by_cases inside : start < nodes
    · have front : 0 < ((marked.drop start).take num).length := by
        rw [length_take, length_drop, length_set, length_replicate]
        omega
      rw [getElem?_append_left front, getElem?_take_of_lt some, getElem?_drop, add_zero,
        getElem?_set_ne apart] at first
      simp [inside] at first
    · simp [marked, drop_of_length_le, not_lt.mp inside, some] at first
  · rintro empty nodeQueue buf rfl rfl
    cases length_eq_zero_iff.mp empty
    rw [found_of_ge (Nat.zero_le _), nil_append]
    refine ⟨length_take_le _ _, append_right_eq_self.mpr (drop_eq_nil_of_le ?_)⟩
    rw [length_take, length_drop]
    rw [length_nil, zero_add] at within
    exact le_min le_rfl (Nat.le_sub_of_add_le' within)

end

section

variable {buf : List Bytes} (stored : StoredHistory env hist s)
  (entries : Covers (EntryCovers env hist 0) 1 b.entryQueue queued)

include stored entries

theorem searchDataNodes_run (some : 0 < buf.length) :
    (b.searchDataNodes env (.new (b.startPos + start) buf)).run s =
      (copyDataNodes (b.found queued start buf.length) (.new (b.startPos + start) buf) >>= fun read =>
        pure { read with offset := 0, isCompleted := true }).run s := by
  have wanted : Covers (EntryCovers env hist 0) 1 ((b.entryQueue.drop start).take buf.length)
      ((queued.drop start).take buf.length) := by
    simpa using (entries.drop start).take one_pos buf.length
  have count : ((b.entryQueue.drop start).take buf.length).length = ((queued.drop start).take buf.length).length :=
    wanted.length_of_mul one_pos (mul_one _).symm
  have outside : ¬ b.startPos + start + buf.length ≤ b.startPos := by omega
  simp only [searchDataNodes, SearchCtx.new, if_neg outside, Nat.le_add_right, if_true, decide_true,
    Nat.add_sub_cancel_left, count, Bool.or_true, found, copyDataNodes_append, bind_assoc]
  rw [EStateM.run_bind, stored.readDataNodes_eq wanted, ← EStateM.run_bind]

/-- The search returns if the buffer has room for what the loops copy. -/
theorem searchDataNodes_ok (some : 0 < buf.length) {ds : List Bytes} :
    (∃ ctx s', (b.searchDataNodes env (.new (b.startPos + start) buf)).run s = .ok ctx s' ∧ ctx.dataBuf = ds) ↔
      (b.found queued start buf.length).length ≤ buf.length ∧
        b.found queued start buf.length ++ buf.drop (b.found queued start buf.length).length = ds := by
  rw [searchDataNodes_run stored entries some, EStateM.run_bind, copyDataNodes_run (Nat.zero_le _)]
  simp only [SearchCtx.new, zero_add, take_zero]
  by_cases room : (b.found queued start buf.length).length ≤ buf.length
  · rw [if_pos room]
    constructor
    · rintro ⟨_, _, done, eq⟩
      cases done
      exact ⟨room, eq⟩
    · rintro ⟨-, eq⟩
      exact ⟨_, _, rfl, eq⟩
  · rw [if_neg room]
    constructor
    · rintro ⟨_, _, done, -⟩
      cases done
    · rintro ⟨fits, -⟩
      exact absurd fits room

/-- The search returns the blocks of a range, whatever the nodes and the caller's buffer hold, exactly
in these cases: the range is empty; it starts inside the entry queue, and at its front, or without a
node queued, or goes to the end of the buffer; or the entry queue is empty. -/
theorem searchDataNodes_iff {nodes num : Nat} (within : start + num ≤ b.entryQueue.length + nodes) :
    (∀ nodeQueue buf, nodeQueue.length = nodes → buf.length = num → ∃ ctx s',
      (searchDataNodes env { b with nodeQueue } (.new (b.startPos + start) buf)).run s = .ok ctx s' ∧
        ctx.dataBuf = ((queued ++ nodeQueue).drop start).take num) ↔
    num = 0 ∨ if start < b.entryQueue.length then
        start = 0 ∨ nodes = 0 ∨ start + num = b.entryQueue.length + nodes
      else b.entryQueue = [] := by
  rcases Nat.eq_zero_or_pos num with rfl | some
  · refine iff_of_true (fun nodeQueue buf _ empty => ?_) (.inl rfl)
    cases length_eq_zero_iff.mp empty
    rw [searchDataNodes]
    split
    · exact ⟨_, s, rfl, rfl⟩
    · simp only [SearchCtx.new, length_nil, Nat.le_add_right, if_true, Nat.add_sub_cancel_left,
        add_zero, Nat.sub_zero, Nat.sub_self, take_zero]
      exact ⟨_, s, rfl, rfl⟩
  have count : b.entryQueue.length = queued.length := entries.length_of_mul one_pos (mul_one _).symm
  rw [count] at within
  rw [or_iff_right some.ne', ← length_eq_zero_iff, count]
  trans b.Finds queued nodes start num
  · refine forall₄_congr fun nodeQueue buf _ size => ?_
    subst size
    exact searchDataNodes_ok (b := { b with nodeQueue }) stored entries some
  · split
    · next lt => exact finds_iff_of_lt within some lt
    · next ge => exact finds_iff_of_ge within some (not_lt.mp ge)

end

/-- Two entries and one node: the last two blocks. -/
theorem searchDataNodes_iff_twoEntries : ∃ entryQueue s, entryQueue.length = 2 ∧ ∃ ctx s',
    (searchDataNodes CryptoLog.symbolicEnv ⟨[[3]], 2, entryQueue, 2, 5⟩ (.new 6 [[0], [0]])).run s =
      .ok ctx s' ∧ ctx.dataBuf = [[2], [3]] := by
  have empty : StoredHistory CryptoLog.symbolicEnv [] ⟨[], (), 0⟩ := ⟨rfl, fun _ _ => False.elim⟩
  obtain ⟨_, entryQueue, s, -, stored, entries⟩ := empty.appendDataNodes [[1], [2]]
  have count : entryQueue.length = 2 := entries.length_of_mul one_pos rfl
  have within : 1 + 2 ≤ entryQueue.length + 1 := by rw [count]
  refine ⟨entryQueue, s, count, (searchDataNodes_iff (b := ⟨[], 2, entryQueue, 2, 5⟩) stored entries
    within).mpr (.inr ?_) [[3]] [[0], [0]] rfl rfl⟩
  rw [count, if_pos (by decide)]
  decide

/-- One entry and one node: the search for the block of the node leaves the buffer as it was. -/
theorem search_behind_entries : ∃ ctx, (searchDataNodes CryptoLog.symbolicEnv
    ⟨[[1]], 2, [CryptoLog.noEntry], 2, 0⟩ (.new 1 [[0]])).run ⟨[], (), 0⟩ = .ok ctx ⟨[], (), 0⟩ ∧
    ctx.dataBuf = [[0]] :=
  ⟨_, rfl, rfl⟩

end AppendDataBuf

end OmegaOsx.MlsDisk
