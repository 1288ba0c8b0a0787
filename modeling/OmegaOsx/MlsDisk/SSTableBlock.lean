import OmegaOsx.MlsDisk.SSTable

/-!
# Record blocks read back

A block holds the bytes of its records and zeros behind them. Both iterators find the records again,
in order: `findValue_stored` and `collectRange_stored` for queries, `scanNext_stored` for scans. What
a scan makes of a record is `view`, what it reports as dropped is `drops`.
-/

namespace OmegaOsx.MlsDisk

open BlockQueryIter List ScanAccessor Nat RecordFlag EStateM.Result Bool SstEnv QueryAccessor

/-! ## Slices -/

variable {pre post : Bytes}

theorem slice_middle {mid : Bytes} {start stop : Nat} (from_pre : start = pre.length)
    (to_mid : stop = start + mid.length) : slice (pre ++ (mid ++ post)) start stop = .ok mid := by
  subst to_mid from_pre
  have inside : pre.length + mid.length ≤ (pre ++ (mid ++ post)).length := by
    simp only [length_append, ← add_assoc]
    exact le_add_right _ _
  unfold slice
  rw [if_pos ⟨le_add_right _ _, inside⟩, drop_left, Nat.add_sub_cancel_left, take_left]

theorem slice_inside {buf : Bytes} {start stop : Nat} (le : start ≤ stop) (inside : stop ≤ buf.length) :
    slice buf start stop = .ok ((buf.drop start).take (stop - start)) := if_pos ⟨le, inside⟩

theorem byteAt_middle {b : UInt8} {i : Nat} (at_pre : i = pre.length) : byteAt (pre ++ b :: post) i = .ok b := by
  subst at_pre
  unfold byteAt
  rw [getElem?_append_right le_rfl, Nat.sub_self]
  rfl

theorem resize_of_le {buf : Bytes} {len : Nat} (h : buf.length ≤ len) :
    resize buf len = buf ++ replicate (len - buf.length) 0 := by
  rw [resize, take_of_length_le h]

theorem length_resize (buf : Bytes) (len : Nat) : (resize buf len).length = len := by
  rw [resize, length_append, length_take, length_replicate]
  omega

variable {κ K V : Type} [LinearOrder K] (env : SstEnv κ K V)

/-! ## One record -/

theorem SstEnv.kSize_eq : env.kSize = bidSize := env.key.size_eq

theorem length_key (k : K) : (env.key.pod.asBytes k).length = env.kSize := env.key.pod.length_asBytes k

theorem length_value (v : V) : (env.value.asBytes v).length = env.vSize := env.value.length_asBytes v

def flagOf : ValueEx V → RecordFlag
  | .synced _ => .synced
  | .unsynced _ => .unsynced
  | .syncedAndUnsynced _ _ => .syncedAndUnsynced

def flagByte : ValueEx V → UInt8
  | .synced _ => 7
  | .unsynced _ => 11
  | .syncedAndUnsynced _ _ => 19

/-- The values of a record as bytes, oldest first. -/
def valueBytes : ValueEx V → Bytes
  | .synced v => env.value.asBytes v
  | .unsynced v => env.value.asBytes v
  | .syncedAndUnsynced sv usv => env.value.asBytes sv ++ env.value.asBytes usv

theorem recordBytes_eq (k : K) (v : ValueEx V) :
    recordBytes env k v = env.key.pod.asBytes k ++ flagByte v :: valueBytes env v := by
  cases v <;> rfl

theorem ofByte_flagByte (v : ValueEx V) : ofByte (flagByte v) = flagOf v := by
  cases v <;> rfl

theorem flagOf_ne_invalid (v : ValueEx V) : flagOf v ≠ .invalid := by
  cases v <;> exact noConfusion

theorem length_recordBytes (k : K) (v : ValueEx V) :
    (recordBytes env k v).length = env.kSize + 1 + (valueBytes env v).length := by
  rw [recordBytes_eq, length_append, length_key, length_cons]
  omega

theorem vSize_le_valueBytes (v : ValueEx V) : env.vSize ≤ (valueBytes env v).length := by
  cases v with
  | synced v => exact (length_value env v).ge
  | unsynced v => exact (length_value env v).ge
  | syncedAndUnsynced sv usv =>
    show _ ≤ (_ ++ _ : Bytes).length
    rw [length_append, length_value]
    exact le_add_right _ _

theorem minRecordSize_le (k : K) (v : ValueEx V) : env.minRecordSize ≤ (recordBytes env k v).length := by
  have := vSize_le_valueBytes env v
  rw [length_recordBytes, env.kSize_eq, minRecordSize]
  omega

/-- The offset is counted at least as far as the bytes go. -/
theorem length_recordBytes_le (k : K) (v : ValueEx V) : (recordBytes env k v).length ≤ countedSize env v := by
  rw [length_recordBytes]
  cases v with
  | synced v => exact (congrArg (env.kSize + 1 + ·) (length_value env v)).le.trans (by
      rw [countedSize]; omega)
  | unsynced v => exact (congrArg (env.kSize + 1 + ·) (length_value env v)).le.trans (by
      rw [countedSize]; omega)
  | syncedAndUnsynced sv usv =>
    simp only [valueBytes, length_append, length_value, countedSize, maxRecordSize]
    omega

theorem recordHead_record {k : K} {v : ValueEx V}
    (full : (pre ++ (recordBytes env k v ++ post)).length = recordBlockSize) :
    recordHead env (pre ++ (recordBytes env k v ++ post)) pre.length =
      .ok (some (k, flagOf v, pre.length + env.kSize + 1)) := by
  have min := minRecordSize_le env k v
  simp only [length_append] at full
  have inside : ¬ pre.length + env.minRecordSize > recordBlockSize := by omega
  have key : slice (pre ++ (recordBytes env k v ++ post)) pre.length (pre.length + env.kSize) =
      .ok (env.key.pod.asBytes k) := by
    rw [recordBytes_eq, append_assoc]
    exact slice_middle rfl (by rw [length_key])
  have flag : byteAt (pre ++ (recordBytes env k v ++ post)) (pre.length + env.kSize) = .ok (flagByte v) := by
    rw [recordBytes_eq, append_assoc, ← append_assoc pre]
    exact byteAt_middle (by rw [length_append, length_key])
  unfold recordHead
  rw [if_neg inside, key, flag]
  show (if ofByte (flagByte v) = .invalid then _ else _) = _
  rw [ofByte_flagByte, if_neg (flagOf_ne_invalid v), env.key.pod.fromBytes_asBytes]
  rfl

/-- Behind the last record there is no room for another one, or a zero where its flag would be. -/
theorem recordHead_padding {n : Nat} (full : (pre ++ replicate n 0).length = recordBlockSize) :
    recordHead env (pre ++ replicate n 0) pre.length = .ok none := by
  unfold recordHead
  split
  · rfl
  next inside =>
    have room : env.kSize + 1 ≤ n := by
      rw [length_append, length_replicate] at full
      rw [minRecordSize, ← env.kSize_eq] at inside
      omega
    obtain ⟨m, rfl⟩ := Nat.exists_eq_add_of_le room
    have zeros : replicate (env.kSize + 1 + m) (0 : UInt8) = replicate env.kSize 0 ++ 0 :: replicate m 0 := by
      rw [add_assoc, replicate_add, add_comm 1 m, replicate_succ]
    have key : slice (pre ++ (replicate env.kSize 0 ++ 0 :: replicate m 0)) pre.length
        (pre.length + env.kSize) = .ok (replicate env.kSize 0) :=
      slice_middle rfl (by rw [length_replicate])
    have flag : byteAt (pre ++ (replicate env.kSize 0 ++ 0 :: replicate m 0)) (pre.length + env.kSize) = .ok 0 := by
      rw [← append_assoc]
      exact byteAt_middle (by rw [length_append, length_replicate])
    rw [zeros, key, flag]
    rfl

variable {offset : Nat}

theorem valueAt_middle {v : V} (at_pre : offset = pre.length) :
    valueAt env (pre ++ (env.value.asBytes v ++ post)) offset = .ok v := by
  unfold valueAt
  rw [slice_middle at_pre (by rw [length_value])]
  exact congrArg Except.ok (env.value.fromBytes_asBytes v)

/-! ## The records of a block -/

def blockBytes (records : List (K × ValueEx V)) : Bytes :=
  records.flatMap fun r => recordBytes env r.1 r.2

theorem blockBytes_cons (r : K × ValueEx V) (rs : List (K × ValueEx V)) :
    blockBytes env (r :: rs) = recordBytes env r.1 r.2 ++ blockBytes env rs := flatMap_cons

theorem length_le_blockBytes (records : List (K × ValueEx V)) :
    records.length ≤ (blockBytes env records).length := by
  induction records with
  | nil => exact le_rfl
  | cons r rs ih =>
    rw [blockBytes_cons, length_append, length_recordBytes, length_cons]
    omega

/-- From `offset` on, the block holds the bytes of `records` and then zeros. -/
structure Stored (block : Bytes) (offset : Nat) (records : List (K × ValueEx V)) : Prop where
  size : block.length = recordBlockSize
  bytes : ∃ pre n, pre.length = offset ∧ block = pre ++ (blockBytes env records ++ List.replicate n 0)

variable {block : Bytes} {records : List (K × ValueEx V)}

theorem Stored.length_lt (stored : Stored env block offset records) : records.length < blockFuel := by
  obtain ⟨size, pre, n, -, rfl⟩ := stored
  have := length_le_blockBytes env records
  simp only [length_append] at size
  unfold blockFuel
  omega

variable {r : K × ValueEx V} {rs : List (K × ValueEx V)}

/-- A stored record and what is behind it. -/
theorem Stored.tail (stored : Stored env block offset (r :: rs)) :
    Stored env block (offset + (recordBytes env r.1 r.2).length) rs := by
  obtain ⟨size, pre, n, rfl, rfl⟩ := stored
  refine ⟨size, pre ++ recordBytes env r.1 r.2, n, length_append, ?_⟩
  rw [blockBytes_cons, append_assoc, append_assoc]

theorem Stored.head (stored : Stored env block offset (r :: rs)) :
    recordHead env block offset = .ok (some (r.1, flagOf r.2, offset + env.kSize + 1)) := by
  obtain ⟨size, pre, n, rfl, rfl⟩ := stored
  rw [blockBytes_cons, append_assoc] at size ⊢
  exact recordHead_record env size

theorem Stored.end (stored : Stored env block offset []) : recordHead env block offset = .ok none := by
  obtain ⟨size, pre, n, rfl, rfl⟩ := stored
  exact recordHead_padding env size

/-- The values of the first record. -/
theorem Stored.values (stored : Stored env block offset (r :: rs)) :
    ∃ pre post, pre.length = offset + env.kSize + 1 ∧
      block = pre ++ (valueBytes env r.2 ++ post) := by
  obtain ⟨size, pre, n, rfl, rfl⟩ := stored
  refine ⟨pre ++ (env.key.pod.asBytes r.1 ++ [flagByte r.2]), blockBytes env rs ++ replicate n 0, ?_, ?_⟩
  · simp only [length_append, length_key, length_singleton]
    omega
  · rw [blockBytes_cons, recordBytes_eq]
    simp only [append_assoc, cons_append, nil_append]

theorem Stored.valueAt_first (stored : Stored env block offset (r :: rs)) {v : V} {more : Bytes}
    (eq : valueBytes env r.2 = env.value.asBytes v ++ more) : valueAt env block (offset + env.kSize + 1) = .ok v := by
  obtain ⟨pre, post, at_pre, rfl⟩ := stored.values
  rw [eq, append_assoc]
  exact valueAt_middle env at_pre.symm

theorem Stored.valueAt_second {k : K} {sv usv : V}
    (stored : Stored env block offset ((k, .syncedAndUnsynced sv usv) :: rs)) :
    valueAt env block (offset + env.kSize + 1 + env.vSize) = .ok usv := by
  obtain ⟨pre, post, at_pre, rfl⟩ := stored.values
  rw [valueBytes, append_assoc, ← append_assoc pre]
  exact valueAt_middle env (by rw [length_append, length_value, at_pre])

/-! ## Queries -/

omit [LinearOrder K] in
/-- The value is only looked at on a hit. -/
theorem read_on_hit {hit : Bool} {value : Res V} {v : V} (read : value = .ok v) (k : K) (offset : Nat) : (do
      let v ← if hit then some <$> value else pure none
      return some ((k, v), offset) : Res _) = .ok (some ((k, if hit then some v else none), offset)) := by
  rw [read]
  cases hit <;> rfl

theorem Stored.queryNext (stored : Stored env block offset (r :: rs)) (a : QueryAccessor K) :
    next env block a offset = .ok (some ((r.1, if a.hitTarget r.1 then some r.2.get else none),
        offset + (recordBytes env r.1 r.2).length)) := by
  unfold BlockQueryIter.next
  rw [stored.head, length_recordBytes, ← add_assoc]
  obtain ⟨k, v⟩ := r
  cases v with
  | synced v =>
    rw [valueBytes, length_value]
    exact read_on_hit (stored.valueAt_first env (append_nil _).symm) k _
  | unsynced v =>
    rw [valueBytes, length_value]
    exact read_on_hit (stored.valueAt_first env (append_nil _).symm) k _
  | syncedAndUnsynced sv usv =>
    rw [valueBytes, length_append, length_value, length_value, ← two_mul]
    exact read_on_hit (stored.valueAt_second env) k _

theorem Stored.queryEnd (stored : Stored env block offset []) (a : QueryAccessor K) :
    next env block a offset = .ok none := by
  unfold BlockQueryIter.next
  rw [stored.end]
  rfl

section

variable {fuel : Nat} (stored : Stored env block offset records) (enough : records.length < fuel)
include stored enough

theorem findValue_stored {k : K} : findValue env block k fuel offset =
      .ok ((records.find? (·.1 = k)).map (·.2.get)) := by
  induction records generalizing offset fuel with
  | nil =>
    obtain ⟨fuel, rfl⟩ := exists_eq_succ_of_ne_zero (ne_of_gt enough)
    rw [findValue, stored.queryEnd]
    rfl
  | cons r rs ih =>
    obtain ⟨fuel, rfl⟩ := exists_eq_succ_of_ne_zero (ne_of_gt (zero_lt_of_lt enough))
    rw [findValue, stored.queryNext]
    by_cases eq : r.1 = k
    · simp [hitTarget, eq]
      rfl
    · rw [find?_cons_of_neg (by simpa using eq), ← ih stored.tail (lt_of_succ_lt_succ enough)]
      simp [eq]

theorem collectRange_stored {first last : K} : collectRange env block first last fuel offset =
      .ok ((records.filter fun r => first ≤ r.1 ∧ r.1 ≤ last).map fun r => (r.1, r.2.get)) := by
  induction records generalizing offset fuel with
  | nil =>
    obtain ⟨fuel, rfl⟩ := exists_eq_succ_of_ne_zero (ne_of_gt enough)
    rw [collectRange, stored.queryEnd]
    rfl
  | cons r rs ih =>
    obtain ⟨fuel, rfl⟩ := exists_eq_succ_of_ne_zero (ne_of_gt (zero_lt_of_lt enough))
    have rest := ih stored.tail (lt_of_succ_lt_succ enough)
    rw [collectRange, stored.queryNext]
    by_cases inside : first ≤ r.1 ∧ r.1 ≤ last
    · simp [hitTarget, inside, rest]
    · rw [filter_cons_of_neg (by simpa using inside), ← rest]
      simp [inside]

/-! ## Scans -/

end

namespace ScanAccessor

variable (a : ScanAccessor)

/-- What a scan makes of a value. -/
def view : ValueEx V → Option (ValueEx V)
  | .synced v => some (.synced v)
  | .unsynced v =>
    if a.allSynced then some (.synced v) else if a.discardUnsynced then none else some (.unsynced v)
  | .syncedAndUnsynced sv usv =>
    if a.allSynced then some (.synced usv)
    else if a.discardUnsynced then some (.synced sv)
    else some (.syncedAndUnsynced sv usv)

/-- What a scan drops of a record. -/
def drops : K × ValueEx V → List (K × V)
  | (_, .synced _) => []
  | (k, .unsynced v) => if a.allSynced then [] else if a.discardUnsynced then [(k, v)] else []
  | (k, .syncedAndUnsynced sv usv) =>
    if a.allSynced then [(k, sv)] else if a.discardUnsynced then [(k, usv)] else []

/-- The records a scan yields. -/
def visible (records : List (K × ValueEx V)) : List (K × ValueEx V) :=
  records.filterMap fun r => (a.view r.2).map (r.1, ·)

/-- A state after some records were scanned. -/
def report (records : List (K × ValueEx V)) (s : TableState κ K V) : TableState κ K V :=
  if a.listening then { s with dropped := s.dropped ++ records.flatMap a.drops } else s

omit [LinearOrder K] in
theorem visible_append (xs ys : List (K × ValueEx V)) :
    a.visible (xs ++ ys) = a.visible xs ++ a.visible ys := filterMap_append

omit [LinearOrder K] in
theorem report_append (xs ys : List (K × ValueEx V)) (s : TableState κ K V) :
    a.report (xs ++ ys) s = a.report ys (a.report xs s) := by
  unfold report
  cases a.listening with
  | false => rfl
  | true => simp only [if_true, flatMap_append, append_assoc]

omit [LinearOrder K] in
theorem report_nothing (none : records.flatMap a.drops = []) (s : TableState κ K V) : a.report records s = s := by
  unfold report
  rw [none, append_nil]
  exact ite_self _

omit [LinearOrder K] in
theorem onDropRecord_run {k : K} {v : V} (drops : a.drops r = [(k, v)]) (s : TableState κ K V) :
    (a.onDropRecord k v).run s = .ok () (a.report [r] s) := by
  unfold onDropRecord report
  rw [flatMap_singleton, drops]
  cases a.listening <;> rfl

end ScanAccessor

variable {a : ScanAccessor}

/-- One round of a scan: the record is yielded as `view` has it, or skipped. -/
theorem Stored.scanHead (stored : Stored env block offset (r :: rs)) (fuel : Nat) (s : TableState κ K V) :
    (BlockScanIter.next env a block (fuel + 1) offset).run s = match a.view r.2 with
      | some w => .ok (some ((r.1, w), offset + (recordBytes env r.1 r.2).length)) (a.report [r] s)
      | none => (BlockScanIter.next env a block fuel
          (offset + (recordBytes env r.1 r.2).length)).run (a.report [r] s) := by
  obtain ⟨k, v⟩ := r
  rw [BlockScanIter.next, stored.head, length_recordBytes, ← add_assoc, ← add_assoc]
  cases v with
  | synced v =>
    rw [valueBytes, length_value, a.report_nothing rfl]
    simp only [flagOf, stored.valueAt_first env (append_nil _).symm, run_liftRes_bind]
    rfl
  | unsynced v =>
    rw [valueBytes, length_value]
    simp only [flagOf, stored.valueAt_first env (append_nil _).symm, run_liftRes_bind]
    cases all : a.allSynced with
    | true =>
      rw [a.report_nothing (by simp [drops, all])]
      simp only [view, all]
      rfl
    | false =>
      cases discard : a.discardUnsynced with
      | true =>
        simp only [view, all, discard, false_eq_true, if_false, if_true]
        rw [run_bind (a.onDropRecord_run (r := (k, .unsynced v)) (by simp [drops, all, discard]) s)]
      | false =>
        rw [a.report_nothing (by simp [drops, discard])]
        simp only [view, all, discard, false_eq_true]
        rfl
  | syncedAndUnsynced sv usv =>
    rw [valueBytes, length_append, length_value, length_value, ← add_assoc]
    simp only [flagOf, stored.valueAt_first env rfl, stored.valueAt_second, run_liftRes_bind]
    cases all : a.allSynced with
    | true =>
      simp only [view, all, if_true]
      rw [run_bind (a.onDropRecord_run (r := (k, .syncedAndUnsynced sv usv)) (by simp [drops, all]) s)]
      rfl
    | false =>
      cases discard : a.discardUnsynced with
      | true =>
        simp only [view, all, discard, false_eq_true, if_false, if_true]
        rw [run_bind (a.onDropRecord_run (r := (k, .syncedAndUnsynced sv usv)) (by simp [drops, all, discard]) s)]
        rfl
      | false =>
        rw [a.report_nothing (by simp [drops, all, discard])]
        simp only [view, all, discard, false_eq_true]
        rfl

/-- From the records of a block a scan either yields nothing more, or the first one in view. -/
theorem Stored.scanNext {fuel : Nat} (stored : Stored env block offset records) (enough : records.length < fuel)
    (s : TableState κ K V) : (a.visible records = [] ∧
      (BlockScanIter.next env a block fuel offset).run s = .ok none (a.report records s)) ∨
    ∃ w seen rest offset', records = seen ++ rest ∧ a.visible seen = [w] ∧ Stored env block offset' rest ∧
      (BlockScanIter.next env a block fuel offset).run s = .ok (some (w, offset')) (a.report seen s) := by
  obtain ⟨fuel, rfl⟩ := exists_eq_succ_of_ne_zero (ne_of_gt (zero_lt_of_lt enough))
  induction records generalizing offset fuel s with
  | nil =>
    refine .inl ⟨rfl, ?_⟩
    rw [BlockScanIter.next, stored.end, a.report_nothing rfl]
    rfl
  | cons r rs ih =>
    have head := stored.scanHead env (a := a) fuel s
    cases view : a.view r.2 with
    | some w =>
      rw [view] at head
      refine .inr ⟨(r.1, w), [r], rs, _, rfl, ?_, stored.tail, head⟩
      simp [visible, view]
    | none =>
      rw [view] at head
      have skipped : a.visible [r] = [] := by simp [visible, view]
      obtain ⟨fuel, rfl⟩ := exists_eq_succ_of_ne_zero (ne_of_gt (zero_lt_of_lt (lt_of_succ_lt_succ enough)))
      rw [head]
      obtain ⟨empty, run⟩ | ⟨w, seen, rest, offset', rfl, one, stored', run⟩ :=
        ih stored.tail (a.report [r] s) fuel (lt_of_succ_lt_succ enough)
      · refine .inl ⟨?_, ?_⟩
        · rw [← singleton_append, a.visible_append, skipped, empty]
          rfl
        · exact run.trans (congrArg (ok none) (a.report_append [r] rs s).symm)
      · refine .inr ⟨w, r :: seen, rest, offset', rfl, ?_, stored', ?_⟩
        · rw [← singleton_append, a.visible_append, skipped, one]
          rfl
        · exact run.trans (congrArg (ok _) (a.report_append [r] seen s).symm)

end OmegaOsx.MlsDisk
