import OmegaOsx.MlsDisk.SSTableRead
import OmegaOsx.Lib.Run
import OmegaOsx.MlsDisk.DiskRecords

/-!
# Tables round-trip exactly when their records pack

`RoundTrips` is the contract of a table: it can be built and loaded again, and whatever is asked of
the loaded table, it answers from the records it was built from. `roundTrips_iff` says when this
holds. A record with two values is counted larger than it is, so the fill of a block can be counted
beyond the block, and building the table panics (`overfull_block`).
-/

namespace OmegaOsx.MlsDisk

open List SstEnv Nat SstIter EStateM.Result

variable {κ K V : Type} [LinearOrder K] (env : SstEnv κ K V)

/-! ## How much a scan can yield -/

/-- How many records there is room for from an offset on. -/
def roomFrom (offset : Nat) : Nat := (recordBlockSize - offset) / env.minRecordSize

theorem minRecordSize_pos : 0 < env.minRecordSize := by
  rw [minRecordSize]
  omega

variable {offset offset' n : Nat}

theorem roomFrom_succ_le (inside : offset + env.minRecordSize ≤ recordBlockSize)
    (advanced : offset + env.minRecordSize ≤ offset') :
    roomFrom env offset' + 1 ≤ roomFrom env offset := by
  unfold roomFrom
  rw [← add_div_right _ (minRecordSize_pos env)]
  exact Nat.div_le_div_right (by omega)

variable {env}

theorem liftRes_run_ok {σ α : Type} {x : Res α} {s s' : σ} {y : α} :
    (liftRes x).run s = .ok y s' ↔ x = .ok y ∧ s' = s := by
  cases x with
  | ok b =>
    show ok b s = .ok y s' ↔ _
    simp [eq_comm]
  | error e => exact ⟨(nomatch ·), fun h => nomatch h.1⟩

variable {block : Bytes} {fuel : Nat} {r : K × ValueEx V} {listening : Bool}

theorem recordHead_some {k : K} {flag : RecordFlag} (h : recordHead env block offset = .ok (some (k, flag, offset'))) :
    offset + env.minRecordSize ≤ recordBlockSize ∧ offset' = offset + env.kSize + 1 := by
  unfold recordHead at h
  split at h
  · cases h
  next inside =>
    obtain ⟨_, -, h⟩ := bind_ok.mp h
    obtain ⟨_, -, h⟩ := bind_ok.mp h
    dsimp only at h
    split at h
    · cases h
    · cases h
      exact ⟨not_lt.mp inside, rfl⟩

variable {s : TableState κ K V} {a : ScanAccessor} {s' : TableState κ K V}

/-- Whatever a block holds, a scan advances by a record's size with each record it yields. -/
theorem scanNext_advances (keep : a.discardUnsynced = false)
    (run : (BlockScanIter.next env a block fuel offset).run s = .ok (some (r, offset')) s') :
    roomFrom env offset' + 1 ≤ roomFrom env offset := by
  cases fuel with
  | zero => cases run
  | succ fuel =>
    obtain ⟨head, s1, lifted, run⟩ := run_bind_ok.mp run
    obtain ⟨read, -⟩ := liftRes_run_ok.mp lifted
    have advance : ∀ {k : K} {flag : RecordFlag} {o o' : Nat}, head = some (k, flag, o) →
        o + env.vSize ≤ o' → roomFrom env o' + 1 ≤ roomFrom env offset := by
      intro k flag o o' eq le
      obtain ⟨inside, rfl⟩ := recordHead_some (read.trans (congrArg Except.ok eq))
      refine roomFrom_succ_le env inside (le_trans ?_ le)
      rw [env.kSize_eq, minRecordSize]
      omega
    rcases head with - | ⟨k, flag, o⟩
    · cases run
    cases flag with
    | synced =>
      obtain ⟨v, _, -, run⟩ := run_bind_ok.mp run
      cases run
      exact advance rfl le_rfl
    | unsynced =>
      obtain ⟨v, _, -, run⟩ := run_bind_ok.mp run
      rw [keep] at run
      split at run
      · cases run
        exact advance rfl le_rfl
      · cases run
        exact advance rfl le_rfl
    | syncedAndUnsynced =>
      obtain ⟨sv, _, -, run⟩ := run_bind_ok.mp run
      obtain ⟨usv, _, -, run⟩ := run_bind_ok.mp run
      rw [keep] at run
      split at run
      · obtain ⟨_, _, -, run⟩ := run_bind_ok.mp run
        cases run
        exact advance rfl (le_add_right _ _)
      · cases run
        exact advance rfl (le_add_right _ _)
    | invalid => cases run

/-- How many records a scan can still yield. -/
def roomAfter (env : SstEnv κ K V) (sst : SSTable K) (it : SstIter) : Nat :=
  (match it.currRbIter with
    | some (_, offset) => roomFrom env offset
    | none => 0) + (sst.footerMeta.numIndex.toNat - 1 - it.currNthIndex) * roomFrom env 0

variable {sst : SSTable K}

theorem sstNext_room (keep : a.discardUnsynced = false) {it it' : SstIter}
    (run : (next env sst a it).run s = .ok (some r, it') s') :
    roomAfter env sst it' + 1 ≤ roomAfter env sst it := by
  obtain ⟨nth, current⟩ := it
  unfold SstIter.next at run
  cases current with
  | none => cases run
  | some cursor =>
    rw [run_unwrapOption_bind] at run
    obtain ⟨found, s1, scanned, run⟩ := run_bind_ok.mp run
    match found with
    | some (record, offset') =>
      cases run
      have := scanNext_advances keep scanned
      simp only [roomAfter]
      omega
    | none =>
      dsimp only at run
      split at run
      · cases run
      next more =>
        split at run
        · cases run
        obtain ⟨block', s2, -, run⟩ := run_bind_ok.mp run
        obtain ⟨found, s3, scanned', run⟩ := run_bind_ok.mp run
        match found with
        | none => cases run
        | some (record, offset') =>
          cases run
          have := scanNext_advances keep scanned'
          have blocks : sst.footerMeta.numIndex.toNat - 1 - nth =
              sst.footerMeta.numIndex.toNat - 1 - (nth + 1) + 1 := by omega
          simp only [roomAfter]
          rw [blocks, succ_mul]
          omega

variable {records : List (K × ValueEx V)}

theorem collect_length (keep : a.discardUnsynced = false) {it : SstIter}
    (run : (collect env sst a fuel it).run s = .ok records s') : records.length ≤ roomAfter env sst it := by
  induction fuel generalizing it s records with
  | zero => cases run
  | succ fuel ih =>
    obtain ⟨⟨found, it'⟩, s1, next, run⟩ := run_bind_ok.mp run
    cases found with
    | none =>
      cases run
      exact zero_le _
    | some r =>
      obtain ⟨rest, s2, more, run⟩ := run_bind_ok.mp run
      cases run
      exact (succ_le_succ (ih more)).trans (sstNext_room keep next)

variable {syncId : UInt64}

/-- A table counts its blocks in 16 bits, which bounds what it can yield. -/
theorem accessScan_length (run : (SSTable.accessScan env sst syncId false listening).run s = .ok records s') :
    records.length ≤ 65535 * roomFrom env 0 := by
  obtain ⟨it, s1, iter, run⟩ := run_bind_ok.mp run
  have bound := collect_length rfl run
  unfold SSTable.iter at iter
  split at iter
  · cases iter
  obtain ⟨block, s2, -, iter⟩ := run_bind_ok.mp iter
  cases iter
  have few := sst.footerMeta.numIndex.toNat_lt
  have total : roomAfter env sst ⟨0, some (block, 0)⟩ ≤ 65535 * roomFrom env 0 := by
    simp only [roomAfter]
    rw [add_comm, ← succ_mul]
    exact mul_le_mul_right _ (by omega)
  exact bound.trans total

/-! ## How many blocks a table takes -/

variable (env) in
theorem countedSize_le (v : ValueEx V) : countedSize env v ≤ 2 * env.minRecordSize := by
  have := env.kSize_eq
  cases v <;> simp only [countedSize, maxRecordSize, minRecordSize] <;> omega

variable (env) in
theorem counted_le (records : List (K × ValueEx V)) :
    counted env records ≤ records.length * (2 * env.minRecordSize) := by
  induction records with
  | nil => exact zero_le _
  | cons r rs ih =>
    have := countedSize_le env r.2
    rw [← singleton_append, counted_append, counted_singleton, length_append, length_singleton, add_mul]
    omega

/-- A block that was closed holds at least a quarter of the records there is room for. -/
theorem room_le_of_closed {g : Group K V} (closed : ¬ StaysOpen env g.1) : roomFrom env 0 ≤ 4 * g.1.length := by
  have fill := counted_le env g.1
  have nonempty : 0 < g.1.length := length_pos_iff.mpr g.2
  have max : env.maxRecordSize ≤ 2 * env.minRecordSize := by
    rw [maxRecordSize, minRecordSize]
    omega
  have few : recordBlockSize < (2 * g.1.length + 2) * env.minRecordSize := by
    unfold StaysOpen at closed
    rw [mul_left_comm, ← mul_assoc] at fill
    rw [add_mul]
    omega
  have := (div_lt_iff_lt_mul (minRecordSize_pos env)).mpr few
  unfold roomFrom
  rw [Nat.sub_zero]
  omega

variable {current : List (K × ValueEx V)}

/-- Only the last block can be left open. -/
theorem closed_of_mem_dropLast : ∀ g ∈ (packFrom env current records).dropLast, ¬ StaysOpen env g.1 := by
  induction records generalizing current with
  | nil =>
    unfold packFrom
    split
    · exact fun _ h => absurd h not_mem_nil
    · exact fun _ h => absurd h not_mem_nil
  | cons r rs ih =>
    unfold packFrom
    split
    · exact ih
    next closes =>
      intro g mem
      cases rest : packFrom env [] rs with
      | nil =>
        rw [rest] at mem
        cases mem
      | cons g' gs =>
        rw [rest] at mem
        obtain _ | ⟨_, mem⟩ := mem
        · exact closes
        · exact ih g (by rw [rest]; exact mem)

variable {groups : List (Group K V)}

theorem room_le_of_all_closed (closed : ∀ g ∈ groups, ¬ StaysOpen env g.1) :
    groups.length * roomFrom env 0 ≤ 4 * (recordsOf groups).length := by
  induction groups with
  | nil => exact (zero_mul _).le
  | cons g later ih =>
    have here := room_le_of_closed (closed g mem_cons_self)
    have rest := ih fun g mem => closed g (mem_cons_of_mem _ mem)
    show (later.length + 1) * _ ≤ 4 * (g.1 ++ recordsOf later).length
    rw [succ_mul, length_append]
    omega

/-- A table of many blocks has many records. -/
theorem room_le_of_pack (records : List (K × ValueEx V)) :
    ((pack env records).length - 1) * roomFrom env 0 ≤ 4 * records.length := by
  have closed : (pack env records).dropLast.length * roomFrom env 0 ≤
      4 * (recordsOf (pack env records).dropLast).length := room_le_of_all_closed closed_of_mem_dropLast
  rw [length_dropLast, dropLast_eq_take] at closed
  refine closed.trans (mul_le_mul_left 4 ?_)
  have whole : recordsOf ((pack env records).take ((pack env records).length - 1)) ++
      recordsOf ((pack env records).drop ((pack env records).length - 1)) = records := by
    rw [recordsOf, recordsOf, ← flatMap_append, take_append_drop, flatMap_pack]
  have := congrArg length whole
  rw [length_append] at this
  omega

/-! ## The contract -/

/-- A call that reads a table. -/
inductive Access (K V : Type)
  | point (k : K)
  | range (ctx : RangeQueryCtx K V)
  | scan (syncId : UInt64) (discardUnsynced listening : Bool)

def stateAfter {σ α : Type} : EStateM.Result Fault σ α → σ
  | .ok _ s => s
  | .error _ s => s

/-- The state after a call, however it ends. -/
def Access.exec (env : SstEnv κ K V) (sst : SSTable K) (s : TableState κ K V) :
    Access K V → TableState κ K V
  | .point k => stateAfter ((SSTable.accessPoint env sst k).run s)
  | .range ctx => stateAfter ((SSTable.accessRange env sst ctx).run s)
  | .scan syncId discardUnsynced listening =>
    stateAfter ((SSTable.accessScan env sst syncId discardUnsynced listening).run s)

/-- The table answers from `records`: the latest value of every key in it, nothing for other keys,
the slots of a range query whose keys are in it, and the records themselves. -/
structure Answers (env : SstEnv κ K V) (sst : SSTable K) (s : TableState κ K V)
    (records : List (K × ValueEx V)) : Prop where
  present : ∀ k v, (k, v) ∈ records → ∃ s', (SSTable.accessPoint env sst k).run s = .ok v.get s'
  absent : ∀ k, (∀ r ∈ records, r.1 ≠ k) →
    ∃ msg s', (SSTable.accessPoint env sst k).run s = .error (.error .notFound msg) s'
  range : ∀ ctx first last, ctx.rangeUncompleted env.key = .ok (some (first, last)) →
    ∃ ctx' s', (SSTable.accessRange env sst ctx).run s = .ok ctx' s' ∧
      RangeQueryCtx.Filled env.key ctx ctx' (records.map fun r => (r.1, r.2.get))
  scan : ∀ syncId listening, syncId ≤ sst.footerMeta.syncId →
    ∃ s', (SSTable.accessScan env sst syncId false listening).run s = .ok records s'

/-- A table is built from the records and loaded from its log; after any calls it answers from them. -/
def RoundTrips (env : SstEnv κ K V) (listening : Bool) (records : List (K × ValueEx V))
    (syncId : UInt64) : Prop :=
  ∃ built s0 sst s, (SSTable.build env listening records syncId).run (.created env) = .ok built s0 ∧
    (SSTable.fromLog env).run s0 = .ok sst s ∧
    ∀ accesses t, Labelled.Run (fun s access t => t = Access.exec env sst s access) s accesses t →
      Answers env sst t records

/-- There is a record, no block is counted fuller than it is large, and 16 bits count the blocks. -/
def Packable (env : SstEnv κ K V) (records : List (K × ValueEx V)) : Prop :=
  records ≠ [] ∧ Packs env records ∧ (pack env records).length < 65536

instance (records : List (K × ValueEx V)) : Decidable (Packable env records) :=
  inferInstanceAs (Decidable (_ ≠ [] ∧ _ ∧ _))

section

variable (loaded : Loaded env sst s groups)
include loaded

theorem Loaded.exec (sorted : Sorted (recordsOf groups)) (nonempty : groups ≠ [])
    (access : Access K V) : Loaded env sst (Access.exec env sst s access) groups := by
  cases access with
  | point k =>
    obtain ⟨msg, s', run, refreshed⟩ := loaded.accessPoint_run sorted k
    have state : stateAfter ((SSTable.accessPoint env sst k).run s) = s' := by
      rw [run]
      cases latest (recordsOf groups) k <;> rfl
    rw [Access.exec, state]
    exact loaded.refreshed refreshed
  | range ctx =>
    rw [Access.exec]
    cases range : ctx.rangeUncompleted env.key with
    | error e =>
      unfold SSTable.accessRange
      rw [range]
      exact loaded
    | ok bounds =>
      cases bounds with
      | none =>
        unfold SSTable.accessRange
        rw [range]
        exact loaded
      | some bounds =>
        obtain ⟨ctx', s', run, refreshed, -⟩ := loaded.accessRange sorted range
        rw [run]
        exact loaded.refreshed refreshed
  | scan syncId discardUnsynced listening =>
    obtain ⟨g, later, rfl⟩ := exists_cons_of_ne_nil nonempty
    have scan : (⟨sst.footerMeta.syncId < syncId, discardUnsynced, listening⟩ : ScanAccessor) = _ := rfl
    obtain ⟨s', run, refreshed⟩ := loaded.accessScan scan
    rw [Access.exec, run]
    exact (loaded.report _).refreshed refreshed

/-- A plain scan yields the records of the blocks that were loaded. -/
theorem Loaded.plainScan (nonempty : groups ≠ []) (le : syncId ≤ sst.footerMeta.syncId) (listening : Bool) :
    ∃ s', (SSTable.accessScan env sst syncId false listening).run s = .ok (recordsOf groups) s' := by
  obtain ⟨g, later, rfl⟩ := exists_cons_of_ne_nil nonempty
  let a : ScanAccessor := ⟨sst.footerMeta.syncId < syncId, false, listening⟩
  obtain ⟨s', run, -⟩ := loaded.accessScan rfl
  have plain : a.allSynced = false := decide_eq_false (UInt64.not_lt.mpr le)
  rw [scanned_of_keep (.inr rfl), (visible_of_plain plain rfl _).1] at run
  exact ⟨s', run⟩

theorem Loaded.answers (sorted : Sorted (recordsOf groups)) (nonempty : groups ≠ []) :
    Answers env sst s (recordsOf groups) where
  present k v mem := by
    obtain ⟨_, s', run, -⟩ := loaded.accessPoint_run sorted k
    rw [sorted.latest_of_mem mem] at run
    exact ⟨s', run⟩
  absent k absent := by
    obtain ⟨msg, s', run, -⟩ := loaded.accessPoint_run sorted k
    rw [latest_of_not_mem absent] at run
    exact ⟨msg, s', run⟩
  range ctx first last range := by
    obtain ⟨ctx', s', run, -, filled⟩ := loaded.accessRange sorted range
    exact ⟨ctx', s', run, filled⟩
  scan syncId listening le := loaded.plainScan nonempty le listening

/-! ## When the contract holds -/

end

theorem footerNblocks_lt (few : n < 65536) : footerNblocks env n < 65536 := by
  have bounds := footerNblocks_bounds env n
  rw [blockSize_eq] at bounds
  omega

theorem Packable.roundTrips (packable : Packable env records) (sorted : Sorted records) (listening : Bool)
    (syncId : UInt64) : RoundTrips env listening records syncId := by
  obtain ⟨nonempty, packs, few⟩ := packable
  obtain ⟨total, built, s0, build, written, -⟩ := build_run packs listening syncId
  have fits := counted_le_of_packsFrom env packs (zero_le _)
  obtain ⟨sst, s, load, loaded, -⟩ := fromLog_run written fits (footerNblocks_lt few)
  have all : recordsOf (pack env records) = records := flatMap_pack env records
  have sorted' : Sorted (recordsOf (pack env records)) := by rwa [all]
  have some : pack env records ≠ [] := fun h => nonempty (by rw [← all, h]; rfl)
  rw [mod_eq_of_lt few, take_length] at loaded
  refine ⟨built, s0, sst, s, build, load, fun accesses t run => ?_⟩
  have keep : ∀ s access t, Loaded env sst s (pack env records) → t = Access.exec env sst s access →
      Loaded env sst t (pack env records) := by
    rintro s access t loaded rfl
    exact loaded.exec sorted' some access
  have loaded' := run.invariant keep loaded
  have answers := loaded'.answers sorted' some
  rwa [all] at answers

/-- In a table of so many blocks there are more records than a loaded table can yield. -/
theorem too_many_blocks (packs : Packs env records) (many : 65536 ≤ footerNblocks env (pack env records).length) :
    65535 * roomFrom env 0 < records.length := by
  have bounds := footerNblocks_bounds env (pack env records).length
  rw [blockSize_eq] at bounds
  have large : 4 * 65535 + 1 < (pack env records).length := by omega
  have fits := counted_le_of_packsFrom env packs (zero_le _)
  -- a block holds a record, so there is room for one
  have room : 0 < roomFrom env 0 := by
    obtain ⟨g, mem⟩ := exists_mem_of_length_pos (zero_lt_of_lt large)
    obtain ⟨r, rest, eq⟩ := exists_cons_of_ne_nil g.2
    have one : env.minRecordSize ≤ (blockBytes env g.1).length := by
      rw [eq, blockBytes_cons, length_append]
      exact (minRecordSize_le env r.1 r.2).trans (le_add_right _ _)
    refine div_pos ?_ (minRecordSize_pos env)
    exact one.trans ((length_blockBytes_le env g.1).trans (fits g mem))
  have enough : ((pack env records).length - 1) * roomFrom env 0 ≤ 4 * records.length := room_le_of_pack records
  have : (4 * 65535 + 1) * roomFrom env 0 ≤ ((pack env records).length - 1) * roomFrom env 0 :=
    mul_le_mul_right _ (by omega)
  omega

theorem RoundTrips.packable (roundTrips : RoundTrips env listening records syncId) : Packable env records := by
  obtain ⟨built, s0, sst, s, build, load, answers⟩ := roundTrips
  obtain ⟨s', scan⟩ := (answers [] s (.nil s)).scan 0 false (UInt64.zero_le)
  by_cases packs : Packs env records
  · obtain ⟨total, built', s0', build', written, -⟩ := build_run packs listening syncId
    cases build.symm.trans build'
    have fits := counted_le_of_packsFrom env packs (zero_le _)
    have all : recordsOf (pack env records) = records := flatMap_pack env records
    have few : footerNblocks env (pack env records).length < 65536 := by
      by_contra many
      have := too_many_blocks packs (not_lt.mp many)
      exact absurd (accessScan_length scan) (not_le.mpr this)
    obtain ⟨sst', s'', load', loaded, -⟩ := fromLog_run written fits few
    cases load.symm.trans load'
    let m := (pack env records).length % 65536
    have loadedSome : (pack env records).take m ≠ [] := by
      intro none
      have index : sst.index = [] := by rw [loaded.index, none]; rfl
      unfold SSTable.accessScan SSTable.iter at scan
      rw [index] at scan
      cases scan
    obtain ⟨t, scan'⟩ := loaded.plainScan loadedSome UInt64.zero_le false
    have same : recordsOf ((pack env records).take m) = records := (ok.inj (scan'.symm.trans scan)).1
    -- nothing is left for the blocks that were cut off
    have split : recordsOf ((pack env records).take m) ++ recordsOf ((pack env records).drop m) = records := by
      rw [recordsOf, recordsOf, ← flatMap_append, take_append_drop]
      exact all
    rw [same] at split
    have rest : recordsOf ((pack env records).drop m) = [] := append_right_eq_self.mp split
    have complete : (pack env records).length ≤ m := by
      refine drop_eq_nil_iff.mp (eq_nil_iff_forall_not_mem.mpr fun g mem => g.2 ?_)
      exact flatMap_eq_nil_iff.mp rest g mem
    refine ⟨?_, packs, lt_of_le_of_lt complete (mod_lt _ (by decide))⟩
    rintro rfl
    exact loadedSome rfl
  · obtain ⟨msg, s0', build'⟩ := build_overflow packs listening syncId
    cases build.symm.trans build'

/-- A sorted sequence of records round-trips exactly when it packs. -/
theorem roundTrips_iff {records : List (K × ValueEx V)} (sorted : Sorted records) (listening : Bool)
    (syncId : UInt64) : RoundTrips env listening records syncId ↔ Packable env records := by
  constructor
  · intro roundTrips
    exact roundTrips.packable
  · intro packable
    exact packable.roundTrips sorted listening syncId

/-- One record of each kind. -/
theorem roundTrips_iff_threeRecords :
    Sorted [(3, .synced someValue), (5, .unsynced someValue), (8, .syncedAndUnsynced someValue someValue)] ∧
    RoundTrips diskEnv true
      [(3, .synced someValue), (5, .unsynced someValue), (8, .syncedAndUnsynced someValue someValue)] 4 :=
  ⟨by decide, (roundTrips_iff (by decide) true 4).mpr (by decide +kernel)⟩

/-- A block that stays open takes the records as they come. -/
theorem PacksFrom.skip {xs ys : List (K × ValueEx V)} (packs : PacksFrom env current (xs ++ ys))
    (stays : StaysOpen env (current ++ xs)) : PacksFrom env (current ++ xs) ys := by
  induction xs generalizing current with
  | nil => simpa using packs
  | cons x xs ih =>
    have whole : current ++ x :: xs = (current ++ [x]) ++ xs := by simp
    have here : StaysOpen env (current ++ [x]) := by
      unfold StaysOpen at stays ⊢
      rw [whole, counted_append] at stays
      omega
    obtain ⟨-, rest⟩ := packs
    rw [if_pos here] at rest
    rw [whole] at stays ⊢
    exact ih rest stays

/-- A synced record under each of the first `n` block addresses. -/
def syncedRecords (n : Nat) : List (Lba × ValueEx RecordValue) :=
  (List.range n).map fun i => (Fin.ofNat _ i, .synced someValue)

/-- Records with one value each, and then one with two values. -/
def overfullRecords (n : Nat) : List (Lba × ValueEx RecordValue) :=
  syncedRecords n ++ [(Fin.ofNat _ n, .syncedAndUnsynced someValue someValue)]

theorem counted_syncedRecords (n : Nat) : counted diskEnv (syncedRecords n) = n * 49 := by
  have size : countedSize diskEnv (.synced someValue) = 49 := by decide +kernel
  unfold counted syncedRecords
  rw [map_map]
  show ((range n).map fun _ => countedSize diskEnv (.synced someValue)).sum = n * 49
  rw [size, map_const', length_range, sum_replicate_nat]

theorem sorted_overfullRecords (small : n < 2 ^ 64) : Sorted (overfullRecords n) := by
  have val : ∀ {i : Nat}, i ≤ n → (Fin.ofNat (2 ^ 64) i).val = i := fun le =>
    mod_eq_of_lt (lt_of_le_of_lt le small)
  refine pairwise_append.mpr ⟨?_, pairwise_singleton _ _, ?_⟩
  · refine pairwise_map.mpr (pairwise_lt_range.imp_of_mem fun {i j} hi hj lt => ?_)
    rw [Fin.lt_def, val (mem_range.mp hi).le, val (mem_range.mp hj).le]
    exact lt
  · intro r mem r' mem'
    obtain ⟨i, inside, rfl⟩ := mem_map.mp mem
    rw [mem_singleton.mp mem', Fin.lt_def, val (mem_range.mp inside).le, val (le_refl n)]
    exact mem_range.mp inside

/-- The block stays open for the last record, which is counted beyond its end. -/
theorem not_roundTrips_overfull (stays : n * 49 + 89 ≤ 131072) (beyond : 131072 < n * 49 + 97) :
    ¬ RoundTrips diskEnv false (overfullRecords n) 0 := by
  intro roundTrips
  obtain ⟨-, packs, -⟩ := roundTrips.packable
  have block : recordBlockSize = 131072 := by decide +kernel
  have max : diskEnv.maxRecordSize = 89 := by decide +kernel
  have last : countedSize diskEnv (.syncedAndUnsynced someValue someValue) = 97 := by decide +kernel
  have staysOpen : StaysOpen diskEnv ([] ++ syncedRecords n) := by
    unfold StaysOpen
    rwa [nil_append, counted_syncedRecords, block, max]
  obtain ⟨fits, -⟩ := packs.skip staysOpen
  rw [nil_append, counted_append, counted_syncedRecords, counted_singleton, last] at fits
  omega

/-- The last record has 95 bytes of room and takes 89, but is counted as 97. -/
theorem overfull_block : Sorted (overfullRecords 2673) ∧ ¬ RoundTrips diskEnv false (overfullRecords 2673) 0 :=
  ⟨sorted_overfullRecords (by decide), not_roundTrips_overfull (by decide) (by decide)⟩

end OmegaOsx.MlsDisk
