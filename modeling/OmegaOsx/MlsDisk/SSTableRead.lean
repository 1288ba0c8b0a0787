import OmegaOsx.MlsDisk.SSTableLoad

/-!
# Queries and scans of a loaded table

What the three kinds of access find in a table whose blocks hold `groups`: a point query the latest
value of a key, a range query the latest values of the keys that are still asked for, a scan the
records in view. Reading changes nothing but the cache.
-/

namespace OmegaOsx.MlsDisk

open SSTable List ScanAccessor SstIter RangeQueryCtx List.Pairwise

variable {κ K V : Type} [LinearOrder K] {env : SstEnv κ K V}

/-- The same table, with another cache. -/
structure Refreshed (env : SstEnv κ K V) (s s' : TableState κ K V) : Prop where
  log : s'.log = s.log
  added : s'.added = s.added
  dropped : s'.dropped = s.dropped
  cached : CacheSound env s'

variable {s : TableState κ K V}

theorem Refreshed.refl (cached : CacheSound env s) : Refreshed env s s := ⟨rfl, rfl, rfl, cached⟩

variable {s' : TableState κ K V}

theorem Refreshed.trans {s'' : TableState κ K V} (h : Refreshed env s s') (h' : Refreshed env s' s'') :
    Refreshed env s s'' :=
  ⟨h'.log.trans h.log, h'.added.trans h.added, h'.dropped.trans h.dropped, h'.cached⟩

variable {groups : List (Group K V)} {sst : SSTable K}

theorem Loaded.refreshed (loaded : Loaded env sst s groups) (same : Refreshed env s s') : Loaded env sst s' groups :=
  ⟨loaded.index, loaded.count, same.log ▸ loaded.log, same.cached, loaded.fits⟩

theorem targetRecordBlock_run {pos : Nat} {block : Bytes} (cached : CacheSound env s)
    (at_pos : blockAt s.log pos = some block) :
    ∃ s', (targetRecordBlock env pos).run s = .ok block s' ∧ Refreshed env s s' := by
  unfold targetRecordBlock
  rw [run_get_bind]
  rcases got : env.cache.get s.cache pos with ⟨found, cache⟩
  have kept : CacheSound env { s with cache } := fun p b held => by
    have held : env.cache.holds (env.cache.get s.cache pos).2 p b := got ▸ held
    exact cached p b (env.cache.get_holds held)
  rw [run_set_bind]
  cases found with
  | some cachedBlock =>
    have same := cached pos cachedBlock (env.cache.get_some (by rw [got]))
    rw [at_pos] at same
    cases same
    exact ⟨_, rfl, rfl, rfl, rfl, kept⟩
  | none =>
    rw [run_bind (read_blockAt (s := { s with cache }) at_pos)]
    exact ⟨_, rfl, rfl, rfl, rfl, kept.put at_pos⟩

variable {g : Group K V} {i : Nat}

section

variable (loaded : Loaded env sst s groups) (at_i : groups[i]? = some g)
include loaded at_i

theorem Loaded.blockAt_entry : blockAt s.log (Group.entry i g).pos = some (Group.block env g) := by
  obtain ⟨more, log⟩ := loaded.log
  rw [log]
  exact blockAt_flatMap env at_i more

theorem Loaded.targetRecordBlock :
    ∃ s', (targetRecordBlock env (Group.entry i g).pos).run s = .ok (Group.block env g) s' ∧
      Refreshed env s s' ∧ Stored env (Group.block env g) 0 g.1 := by
  obtain ⟨s', run, same⟩ := targetRecordBlock_run loaded.cached (loaded.blockAt_entry at_i)
  exact ⟨s', run, same, Group.stored env (loaded.fits g (mem_of_getElem? at_i))⟩

/-! ## Sorted records -/

end

def recordsOf (groups : List (Group K V)) : List (K × ValueEx V) := groups.flatMap Subtype.val

def Sorted (records : List (K × ValueEx V)) : Prop := records.Pairwise fun r r' => r.1 < r'.1

instance (records : List (K × ValueEx V)) : Decidable (Sorted records) :=
  inferInstanceAs (Decidable (List.Pairwise _ _))

variable {records : List (K × ValueEx V)} {k first last : K}

theorem Sorted.unique (sorted : Sorted records) {v v' : ValueEx V} (mem : (k, v) ∈ records)
    (mem' : (k, v') ∈ records) : v = v' := by
  by_contra ne
  have := forall_of_forall_of_flip (R := fun r r' => r.1 = r'.1 → r = r')
    (fun _ _ _ => rfl) (sorted.imp fun lt eq => absurd eq lt.ne) (sorted.imp fun lt eq => absurd eq lt.ne')
    mem mem' rfl
  exact ne (Prod.ext_iff.mp this).2

variable {r : K × ValueEx V}

omit [LinearOrder K] in
theorem mem_recordsOf : r ∈ recordsOf groups ↔ ∃ (i : Nat) (g : Group K V), groups[i]? = some g ∧
    r ∈ g.1 := by
  unfold recordsOf
  rw [mem_flatMap]
  constructor
  · rintro ⟨g, mem, mem'⟩
    obtain ⟨i, at_i⟩ := mem_iff_getElem?.mp mem
    exact ⟨i, g, at_i, mem'⟩
  · rintro ⟨i, g, at_i, mem⟩
    exact ⟨g, mem_of_getElem? at_i, mem⟩

section

variable (sorted : Sorted (recordsOf groups)) (at_i : groups[i]? = some g)
include sorted at_i

theorem Sorted.group : Sorted g.1 := (pairwise_flatMap.mp sorted).1 g (mem_of_getElem? at_i)

/-- The blocks come in key order. -/
theorem Sorted.before {j : Nat} {g' : Group K V}
    (at_j : groups[j]? = some g') (lt : i < j) {r' : K × ValueEx V} (mem : r ∈ g.1) (mem' : r' ∈ g'.1) :
    r.1 < r'.1 := by
  obtain ⟨hi, rfl⟩ := List.getElem?_eq_some_iff.mp at_i
  obtain ⟨hj, rfl⟩ := List.getElem?_eq_some_iff.mp at_j
  exact pairwise_iff_getElem.mp (pairwise_flatMap.mp sorted).2 i j hi hj lt r mem r' mem'

end

/-- A key of a block is in the range of its index entry. -/
theorem Sorted.within (sorted : Sorted g.1) (mem : r ∈ g.1) (i : Nat) :
    (Group.entry i g).first ≤ r.1 ∧ r.1 ≤ (Group.entry i g).last := by
  obtain ⟨records, ne⟩ := g
  have reflexive : records.Pairwise fun r r' => r.1 ≤ r'.1 := imp le_of_lt sorted
  constructor
  · obtain _ | ⟨_, later⟩ := mem
    · exact le_refl _
    · exact (pairwise_cons.mp reflexive).1 r later
  show r.1 ≤ (records.getLast ne).1
  have mem : r ∈ records := mem
  rw [← dropLast_append_getLast ne] at mem reflexive
  obtain earlier | last := mem_append.mp mem
  · exact (pairwise_append.mp reflexive).2.2 r earlier _ (mem_singleton_self _)
  · rw [mem_singleton.mp last]

/-- No key is in the range of two index entries. -/
theorem Sorted.index_unique (sorted : Sorted (recordsOf groups)) {j : Nat} {g' : Group K V} (at_i : groups[i]? = some g)
    (at_j : groups[j]? = some g') (hi : (Group.entry i g).first ≤ k ∧ k ≤ (Group.entry i g).last)
    (hj : (Group.entry j g').first ≤ k ∧ k ≤ (Group.entry j g').last) : i = j := by
  obtain lt | eq | gt := lt_trichotomy i j
  · have := sorted.before at_i at_j lt (getLast_mem g.2) (head_mem g'.2)
    exact absurd (hj.1.trans hi.2) (not_le_of_gt this)
  · exact eq
  · have := sorted.before at_j at_i gt (getLast_mem g'.2) (head_mem g.2)
    exact absurd (hi.1.trans hj.2) (not_le_of_gt this)

/-! ## Point queries -/

/-- The latest value of a key. -/
def latest (records : List (K × ValueEx V)) (k : K) : Option V :=
  (records.find? (·.1 = k)).map (·.2.get)

theorem Sorted.latest_of_mem (sorted : Sorted records) {v : ValueEx V} (mem : (k, v) ∈ records) :
    latest records k = some v.get := by
  unfold latest
  cases found : records.find? (·.1 = k) with
  | none => exact absurd (decide_eq_true rfl) (find?_eq_none.mp found (k, v) mem)
  | some r =>
    have key : r.1 = k := by simpa using find?_some found
    have value := sorted.unique (key ▸ mem_of_find?_eq_some found : (k, r.2) ∈ records) mem
    exact congrArg (some ∘ ValueEx.get) value

theorem exists_of_latest {v : V} (h : latest records k = some v) : ∃ w, (k, w) ∈ records ∧ w.get = v := by
  obtain ⟨r, found, rfl⟩ := Option.map_eq_some_iff.mp h
  have key : r.1 = k := by simpa using find?_some found
  exact ⟨r.2, key ▸ mem_of_find?_eq_some found, rfl⟩

theorem latest_of_not_mem (absent : ∀ r ∈ records, r.1 ≠ k) : latest records k = none := by
  unfold latest
  rw [find?_eq_none.mpr fun r mem => by simpa using absent r mem]
  rfl

/-- The index sends a key to the one block that can have it. -/
theorem Sorted.lookup (sorted : Sorted (recordsOf groups)) (k : K) :
    ((groups.mapIdx Group.entry).findSome? (fun entry =>
        if entry.first ≤ k ∧ k ≤ entry.last then some entry.pos else none) = none ∧
      latest (recordsOf groups) k = none) ∨
    ∃ (i : Nat) (g : Group K V), groups[i]? = some g ∧
      (groups.mapIdx Group.entry).findSome? (fun entry =>
        if entry.first ≤ k ∧ k ≤ entry.last then some entry.pos else none) =
        some (Group.entry i g).pos ∧
      latest (recordsOf groups) k = latest g.1 k := by
  have entries : ∀ {i : Nat} {g : Group K V}, groups[i]? = some g →
      Group.entry i g ∈ groups.mapIdx Group.entry := fun {i g} at_i => by
    refine mem_iff_getElem?.mpr ⟨i, ?_⟩
    rw [getElem?_mapIdx, at_i]
    rfl
  cases found : (groups.mapIdx Group.entry).findSome? fun entry =>
      if entry.first ≤ k ∧ k ≤ entry.last then some entry.pos else none with
  | none =>
    refine .inl ⟨rfl, latest_of_not_mem ?_⟩
    rintro r mem rfl
    obtain ⟨i, g, at_i, mem⟩ := mem_recordsOf.mp mem
    have outside := findSome?_eq_none_iff.mp found _ (entries at_i)
    rw [if_pos ((sorted.group at_i).within mem i)] at outside
    cases outside
  | some pos =>
    obtain ⟨entry, mem, hit⟩ := exists_of_findSome?_eq_some found
    obtain ⟨i, inside, rfl⟩ := mem_mapIdx.mp mem
    have at_i := getElem?_eq_getElem inside
    split at hit
    next within =>
      refine .inr ⟨i, groups[i], at_i, hit.symm, ?_⟩
      cases value : latest groups[i].1 k with
      | some v =>
        obtain ⟨w, mem, rfl⟩ := exists_of_latest value
        exact sorted.latest_of_mem (mem_recordsOf.mpr ⟨i, _, at_i, mem⟩)
      | none =>
        -- a record of another block is outside this block's range
        refine latest_of_not_mem ?_
        rintro ⟨k', w⟩ mem rfl
        obtain ⟨j, g, at_j, mem⟩ := mem_recordsOf.mp mem
        cases sorted.index_unique at_i at_j within ((sorted.group at_j).within mem j)
        cases at_i.symm.trans at_j
        rw [(sorted.group at_i).latest_of_mem mem] at value
        cases value
    next => cases hit

/-- A point query returns the latest value of the key, if there is one. -/
theorem Loaded.accessPoint_run (loaded : Loaded env sst s groups) (sorted : Sorted (recordsOf groups)) (k : K) :
    ∃ msg s', (accessPoint env sst k).run s =
        (latest (recordsOf groups) k).elim (.error (.error .notFound msg) s') (.ok · s') ∧ Refreshed env s s' := by
  unfold accessPoint
  rw [loaded.index]
  obtain ⟨found, absent⟩ | ⟨i, g, at_i, found, same⟩ := sorted.lookup k
  · rw [found, absent]
    exact ⟨_, s, rfl, .refl loaded.cached⟩
  obtain ⟨s', block, refreshed, stored⟩ := loaded.targetRecordBlock at_i
  have find : _ = Except.ok (latest g.1 k) := findValue_stored env stored stored.length_lt
  rw [found, same]
  rw [run_bind block, find]
  cases latest g.1 k with
  | none => exact ⟨_, s', rfl, refreshed⟩
  | some v => exact ⟨"", s', rfl, refreshed⟩

/-! ## Range queries -/

/-- What a range query collects from a list of records. -/
def inRange (first last : K) (records : List (K × ValueEx V)) : List (K × V) :=
  (records.filter fun r => first ≤ r.1 ∧ r.1 ≤ last).map fun r => (r.1, r.2.get)

theorem inRange_append (first last : K) (xs ys : List (K × ValueEx V)) :
    inRange first last (xs ++ ys) = inRange first last xs ++ inRange first last ys := by
  rw [inRange, filter_append, map_append]
  rfl

theorem mem_inRange {r : K × V} (mem : r ∈ inRange first last records) :
    (first ≤ r.1 ∧ r.1 ≤ last) ∧ ∃ v, (r.1, v) ∈ records ∧ v.get = r.2 := by
  obtain ⟨r', mem', rfl⟩ := mem_map.mp mem
  obtain ⟨mem', within⟩ := mem_filter.mp mem'
  exact ⟨by simpa using within, r'.2, mem', rfl⟩

theorem Sorted.distinct_inRange (sorted : Sorted records) (first last : K) :
    (inRange first last records).Pairwise fun r r' => r.1 ≠ r'.1 :=
  pairwise_map.mpr ((sublist filter_sublist sorted).imp fun lt => lt.ne)

/-- A block that does not overlap the range has no key in it. -/
theorem Sorted.inRange_outside (sorted : Sorted g.1)
    (outside : (Group.entry i g).last < first ∨ last < (Group.entry i g).first) : inRange first last g.1 = [] := by
  unfold inRange
  rw [map_eq_nil_iff, filter_eq_nil_iff]
  intro r mem
  have within := sorted.within mem i
  simp only [decide_eq_true_eq, not_and, not_le]
  intro lo
  obtain below | above := outside
  · exact absurd (lo.trans within.2) (not_le_of_gt below)
  · exact lt_of_lt_of_le above within.1

variable {later : List (Group K V)} {ctx : RangeQueryCtx K V} {it : SstIter} {rest : List (K × ValueEx V)}

/-- The loop over the blocks that overlap the range, from block number `i` on. -/
theorem readRange_run (cached : CacheSound env s)
    (blocks : ∀ (j : Nat) (g : Group K V), later[j]? = some g →
      blockAt s.log (Group.entry (i + j) g).pos = some (Group.block env g))
    (fits : ∀ g ∈ later, counted env g.1 ≤ recordBlockSize) (sorted : Sorted (recordsOf later))
    (slots : ∀ k, first ≤ k → k ≤ last → ctx.HasSlot env.key k) : ∃ ctx' s', (readRange env first last
        ((later.mapIdx fun j g => Group.entry (i + j) g).filterMap fun entry =>
          if entry.last < first ∨ last < entry.first then none else some entry.pos) ctx).run s =
        .ok ctx' s' ∧ Refreshed env s s' ∧
      RangeQueryCtx.Filled env.key ctx ctx' (inRange first last (recordsOf later)) := by
  induction later generalizing i s ctx with
  | nil => exact ⟨ctx, s, rfl, .refl cached, filled_nil _ _⟩
  | cons g later ih =>
    obtain ⟨sortedHere, sortedLater, before⟩ : Sorted g.1 ∧ Sorted (recordsOf later) ∧
        ∀ r ∈ g.1, ∀ r' ∈ recordsOf later, r.1 < r'.1 := pairwise_append.mp sorted
    have shift : (g :: later).mapIdx (fun j g => Group.entry (i + j) g) =
        Group.entry i g :: later.mapIdx fun j g => Group.entry (i + 1 + j) g := by
      rw [mapIdx_cons]
      simp only [add_zero, add_assoc, add_comm 1]
    have blocksLater : ∀ j g, later[j]? = some g →
        blockAt s.log (Group.entry (i + 1 + j) g).pos = some (Group.block env g) := fun j g at_j => by
      rw [add_assoc, add_comm 1]
      exact blocks (j + 1) g at_j
    have fitsLater := fun g mem => fits g (mem_cons_of_mem _ mem)
    have split : inRange first last (recordsOf (g :: later)) =
        inRange first last g.1 ++ inRange first last (recordsOf later) := inRange_append ..
    rw [shift, split]
    by_cases outside : (Group.entry i g).last < first ∨ last < (Group.entry i g).first
    · rw [filterMap_cons, if_pos outside, sortedHere.inRange_outside outside]
      exact ih cached blocksLater fitsLater sortedLater slots
    have stored := Group.stored env (fits g mem_cons_self)
    obtain ⟨s1, block, refreshed⟩ := targetRecordBlock_run cached (blocks 0 g rfl)
    rw [add_zero] at block
    have collected : BlockQueryIter.collectRange env (Group.block env g) first last blockFuel 0 =
        .ok (inRange first last g.1) := collectRange_stored env stored stored.length_lt
    obtain ⟨ctx1, completed, filled⟩ : ∃ ctx1,
        (inRange first last g.1).foldlM (fun ctx r => ctx.complete env.key r.1 r.2) ctx = .ok ctx1 ∧
        RangeQueryCtx.Filled env.key ctx ctx1 (inRange first last g.1) :=
      completeAll_run (fun r mem => slots r.1 (mem_inRange mem).1.1 (mem_inRange mem).1.2)
        (sortedHere.distinct_inRange first last)
    obtain ⟨ctx', s', rest, refreshed', filled'⟩ := ih refreshed.cached
      (fun j g at_j => refreshed.log ▸ blocksLater j g at_j) fitsLater sortedLater
      (fun k lo hi => (slots k lo hi).filled filled)
    refine ⟨ctx', s', ?_, refreshed.trans refreshed', filled.trans filled' ?_⟩
    · rw [filterMap_cons, if_neg outside]
      rw [readRange, run_bind block, collected, run_liftRes_bind, completed]
      exact rest
    · intro r mem r' mem'
      obtain ⟨-, v, mem, -⟩ := mem_inRange mem
      obtain ⟨-, v', mem', -⟩ := mem_inRange mem'
      exact (before _ mem _ mem').ne

/-- A range query fills the open slots of the keys that are there, and no others. -/
theorem Loaded.accessRange (loaded : Loaded env sst s groups) (sorted : Sorted (recordsOf groups))
    (range : ctx.rangeUncompleted env.key = .ok (some (first, last))) :
    ∃ ctx' s', (accessRange env sst ctx).run s = .ok ctx' s' ∧ Refreshed env s s' ∧
      RangeQueryCtx.Filled env.key ctx ctx' ((recordsOf groups).map fun r => (r.1, r.2.get)) := by
  obtain ⟨covers, slots⟩ := rangeUncompleted_some range
  have blocks : ∀ j g, groups[j]? = some g →
      blockAt s.log (Group.entry (0 + j) g).pos = some (Group.block env g) := fun j g at_j => by
    rw [zero_add]
    exact loaded.blockAt_entry at_j
  obtain ⟨ctx', s', run, refreshed, filled⟩ := readRange_run loaded.cached blocks loaded.fits sorted slots
  refine ⟨ctx', s', ?_, refreshed, filled.start, filled.numValues, ?_, fun k => ?_⟩
  · unfold SSTable.accessRange
    rw [range, run_liftRes_bind, run_unwrapOption_bind, loaded.index]
    simpa only [zero_add] using run
  · rw [filled.res, inRange, filter_map, filter_map, filter_filter]
    refine congrArg (ctx.res ++ List.map _ ·) (filter_congr fun r _ => ?_)
    -- open slots are within the range
    by_cases opened : ctx.Open env.key r.1
    · simp [covers r.1 opened]
    · simp [opened]
  · rw [filled.still]
    refine and_congr_right fun opened => ⟨fun absent r mem => ?_, fun absent r mem => ?_⟩
    · obtain ⟨r', mem', rfl⟩ := mem_map.mp mem
      rintro rfl
      have within : r' ∈ (recordsOf groups).filter fun r => first ≤ r.1 ∧ r.1 ≤ last :=
        mem_filter.mpr ⟨mem', decide_eq_true (covers _ opened)⟩
      exact absent _ (mem_map.mpr ⟨r', within, rfl⟩) rfl
    · obtain ⟨-, v, mem, eq⟩ := mem_inRange mem
      exact absent r (mem_map.mpr ⟨_, mem, Prod.ext rfl eq⟩)

/-! ## Scans -/

/-- The blocks a scan goes through behind the current one: a block that yields nothing is the last. -/
def scanned (a : ScanAccessor) : List (Group K V) → List (Group K V)
  | [] => []
  | g :: later => g :: if (a.visible g.1).isEmpty then [] else scanned a later

variable {a : ScanAccessor}

omit [LinearOrder K] in
theorem report_eq (records : List (K × ValueEx V)) (s : TableState κ K V) : a.report records s =
    { s with dropped := s.dropped ++ if a.listening then records.flatMap a.drops else [] } := by
  unfold report
  split
  · rfl
  · rw [append_nil]

theorem CacheSound.report (cached : CacheSound env s) (records : List (K × ValueEx V)) :
    CacheSound env (a.report records s) := by
  rw [report_eq]
  exact cached

theorem Refreshed.report (h : Refreshed env s s') (records : List (K × ValueEx V)) :
    Refreshed env (a.report records s) (a.report records s') := by
  rw [report_eq, report_eq]
  exact ⟨h.log, h.added, congrArg (· ++ _) h.dropped, h.cached⟩

theorem Loaded.report (loaded : Loaded env sst s groups) (records : List (K × ValueEx V)) :
    Loaded env sst (a.report records s) groups := by
  rw [report_eq]
  exact ⟨loaded.index, loaded.count, loaded.log, loaded.cached, loaded.fits⟩

/-- Where a scan of a table stands: `rest` of block number `nth` is still to come, and the blocks
`later`. -/
structure Scanning (env : SstEnv κ K V) (groups : List (Group K V)) (it : SstIter)
    (rest : List (K × ValueEx V)) (later : List (Group K V)) : Prop where
  later_eq : groups.drop (it.currNthIndex + 1) = later
  inside : it.currNthIndex < groups.length
  block : ∃ block offset, it.currRbIter = some (block, offset) ∧ Stored env block offset rest

/-- One call of `next`: a record of the current block, a record of the next block, or the end. -/
theorem Scanning.next (loaded : Loaded env sst s groups)
    (scanning : Scanning env groups it rest later) :
    (∃ w seen rest' it', rest = seen ++ rest' ∧ a.visible seen = [w] ∧
      Scanning env groups it' rest' later ∧
      (next env sst a it).run s = .ok (some w, it') (a.report seen s)) ∨
    (∃ w g later' seen rest' it' s', later = g :: later' ∧ a.visible rest = [] ∧ g.1 = seen ++ rest' ∧
      a.visible seen = [w] ∧ Scanning env groups it' rest' later' ∧
      (next env sst a it).run s = .ok (some w, it') s' ∧
      Refreshed env (a.report (rest ++ seen) s) s') ∨
    (∃ it' s', a.visible (rest ++ recordsOf (scanned a later)) = [] ∧
      (next env sst a it).run s = .ok (none, it') s' ∧
      Refreshed env (a.report (rest ++ recordsOf (scanned a later)) s) s') := by
  obtain ⟨rfl, inside, block, offset, eq, stored⟩ := scanning
  obtain ⟨nth, cur⟩ := it
  cases eq
  unfold SstIter.next
  rw [run_unwrapOption_bind]
  obtain ⟨empty, run⟩ | ⟨w, seen, rest', offset', rfl, one, stored', run⟩ :=
    stored.scanNext env stored.length_lt s
  · right
    rw [run_bind run]
    rw [loaded.count]
    cases behind : groups.drop (nth + 1) with
    | nil =>
      rw [if_pos (drop_eq_nil_iff.mp behind)]
      refine .inr ⟨_, _, ?_, rfl, ?_⟩
      · rw [scanned, recordsOf, flatMap_nil, append_nil, empty]
      · rw [scanned, recordsOf, flatMap_nil, append_nil]
        exact .refl (loaded.cached.report rest)
    | cons g later' =>
      have at_next : groups[nth + 1]? = some g := by
        rw [← head?_drop, behind]
        rfl
      have behind' : groups.drop (nth + 1 + 1) = later' := by
        rw [← drop_drop, behind]
        rfl
      obtain ⟨more, -⟩ := List.getElem?_eq_some_iff.mp at_next
      have entry : sst.index[nth + 1]? = some (Group.entry (nth + 1) g) := by
        rw [loaded.index, getElem?_mapIdx, at_next]
        rfl
      obtain ⟨s1, read, refreshed, stored1⟩ := (loaded.report rest).targetRecordBlock at_next
      rw [if_neg (not_le.mpr more), entry]
      rw [run_bind (unwrap_run read)]
      obtain ⟨empty1, run1⟩ | ⟨w, seen, rest', offset', split, one, stored', run1⟩ :=
        stored1.scanNext env stored1.length_lt s1
      · -- the scan ends at this block, whatever is behind it
        have last : recordsOf (scanned a (g :: later')) = g.1 := by
          rw [scanned, empty1]
          exact flatMap_singleton _ _
        rw [run_bind run1, last]
        refine .inr ⟨_, _, ?_, rfl, ?_⟩
        · rw [a.visible_append, empty, empty1]
          rfl
        · rw [a.report_append]
          exact refreshed.report g.1
      · rw [run_bind run1]
        refine .inl ⟨w, g, later', seen, rest', _, _, rfl, empty, split, one,
          ⟨behind', more, _, _, rfl, stored'⟩, rfl, ?_⟩
        rw [a.report_append]
        exact refreshed.report seen
  · refine .inl ⟨w, seen, rest', ⟨nth, some (block, offset')⟩, rfl, one,
      ⟨rfl, inside, block, offset', rfl, stored'⟩, ?_⟩
    rw [run_bind run]
    rfl

omit [LinearOrder K] in
theorem length_pos_of_visible {seen : List (K × ValueEx V)} {w : K × ValueEx V}
    (one : a.visible seen = [w]) : 0 < seen.length := by
  cases seen with
  | nil => cases one
  | cons => exact Nat.succ_pos _

theorem Scanning.collect {fuel : Nat} (loaded : Loaded env sst s groups)
    (scanning : Scanning env groups it rest later) (enough : (rest ++ recordsOf later).length < fuel) :
    ∃ s', (collect env sst a fuel it).run s = .ok (a.visible (rest ++ recordsOf (scanned a later))) s' ∧
      Refreshed env (a.report (rest ++ recordsOf (scanned a later)) s) s' := by
  induction fuel generalizing s it rest later with
  | zero => cases enough
  | succ fuel ih =>
    rw [collect]
    rw [length_append] at enough
    obtain ⟨w, seen, rest', it', rfl, one, scanning', run⟩ |
      ⟨w, g, later', seen, rest', it', s1, rfl, empty, split, one, scanning', run, refreshed⟩ |
      ⟨it', s', empty, run, refreshed⟩ := scanning.next loaded
    · have fewer := length_pos_of_visible one
      obtain ⟨s', all, refreshed⟩ := ih (loaded.report seen) scanning' (by
        rw [length_append] at enough ⊢
        omega)
      refine ⟨s', ?_, ?_⟩
      · rw [run_bind run]
        rw [run_bind all, append_assoc, a.visible_append seen, one]
        rfl
      · rw [append_assoc, a.report_append]
        exact refreshed
    · have fewer := length_pos_of_visible one
      have through : scanned a (g :: later') = g :: scanned a later' := by
        rw [scanned, split, a.visible_append, one]
        rfl
      obtain ⟨s', all, refreshed'⟩ := ih ((loaded.report (rest ++ seen)).refreshed refreshed) scanning' (by
        have total : recordsOf (g :: later') = g.1 ++ recordsOf later' := flatMap_cons
        rw [total, split] at enough
        simp only [length_append] at enough ⊢
        omega)
      have whole : rest ++ recordsOf (scanned a (g :: later')) =
          (rest ++ seen) ++ (rest' ++ recordsOf (scanned a later')) := by
        rw [through]
        show rest ++ (g.1 ++ _) = _
        rw [split, append_assoc, append_assoc]
        rfl
      refine ⟨s', ?_, ?_⟩
      · rw [run_bind run]
        rw [run_bind all, whole, a.visible_append (rest ++ seen), a.visible_append rest, empty, one]
        rfl
      · rw [whole, a.report_append]
        exact (refreshed.report _).trans refreshed'
    · refine ⟨s', ?_, refreshed⟩
      rw [run_bind run, empty]
      rfl

theorem length_recordsOf_le (fits : ∀ g ∈ groups, counted env g.1 ≤ recordBlockSize) :
    (recordsOf groups).length ≤ groups.length * recordBlockSize := by
  induction groups with
  | nil => exact Nat.zero_le _
  | cons g later ih =>
    have here : g.1.length ≤ recordBlockSize :=
      ((length_le_blockBytes env g.1).trans (length_blockBytes_le env g.1)).trans (fits g mem_cons_self)
    have rest := ih fun g mem => fits g (mem_cons_of_mem _ mem)
    show (g.1 ++ recordsOf later).length ≤ _
    rw [length_append, length_cons, Nat.succ_mul]
    omega

/-- A scan of a whole table. -/
theorem Loaded.accessScan (loaded : Loaded env sst s (g :: later)) {syncId : UInt64} {discardUnsynced listening : Bool}
    (scan : a = ⟨sst.footerMeta.syncId < syncId, discardUnsynced, listening⟩) :
    ∃ s', (accessScan env sst syncId discardUnsynced listening).run s =
        .ok (a.visible (g.1 ++ recordsOf (scanned a later))) s' ∧
      Refreshed env (a.report (g.1 ++ recordsOf (scanned a later)) s) s' := by
  obtain ⟨s1, read, refreshed, stored⟩ := loaded.targetRecordBlock (i := 0) rfl
  have first : sst.index[0]? = some (Group.entry 0 g) := by
    rw [loaded.index, getElem?_mapIdx]
    rfl
  have entries : sst.index.length = (g :: later).length := by
    rw [loaded.index, length_mapIdx]
  have scanning : Scanning env (g :: later) ⟨0, some (Group.block env g, 0)⟩ g.1 later :=
    ⟨rfl, Nat.succ_pos _, _, _, rfl, stored⟩
  obtain ⟨s', run, refreshed'⟩ := scanning.collect (loaded.refreshed refreshed)
    (Nat.lt_succ_of_le (length_recordsOf_le loaded.fits))
  refine ⟨s', ?_, (refreshed.report _).trans refreshed'⟩
  have iter : (iter env sst).run s = .ok ⟨0, some (Group.block env g, 0)⟩ s1 := by
    unfold SSTable.iter
    rw [first]
    rw [run_bind (unwrap_run read)]
    rfl
  unfold SSTable.accessScan
  rw [run_bind iter, entries, ← scan]
  exact run

omit [LinearOrder K] in
/-- A scan that discards nothing goes through the whole table. -/
theorem scanned_of_keep (keep : a.allSynced = true ∨ a.discardUnsynced = false) (groups : List (Group K V)) :
    scanned a groups = groups := by
  induction groups with
  | nil => rfl
  | cons g later ih =>
    obtain ⟨r, rest, eq⟩ := exists_cons_of_ne_nil g.2
    have shown : ∀ v : ValueEx V, (a.view v).isSome := fun v => by
      cases v <;> (unfold view; obtain h | h := keep <;> simp [h])
      all_goals split <;> rfl
    obtain ⟨w, view⟩ := Option.isSome_iff_exists.mp (shown r.2)
    have some : (a.visible g.1).isEmpty = false := by
      rw [eq, visible, filterMap_cons, view]
      rfl
    rw [scanned, some, ih]
    rfl

omit [LinearOrder K] in
/-- A scan that neither discards nor promotes yields the records as they are. -/
theorem visible_of_plain (all : a.allSynced = false) (discard : a.discardUnsynced = false)
    (records : List (K × ValueEx V)) : a.visible records = records ∧ records.flatMap a.drops = [] := by
  have view : ∀ v : ValueEx V, a.view v = some v := fun v => by
    cases v <;> simp [view, all, discard]
  have drops : ∀ r : K × ValueEx V, a.drops r = [] := by
    rintro ⟨k, v⟩
    cases v <;> simp [drops, all, discard]
  constructor
  · unfold visible
    simp [view]
  · simp [drops]

end OmegaOsx.MlsDisk
