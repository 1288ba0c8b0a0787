import OmegaOsx.MlsDisk.RawLogSound

/-!
# Committing a transaction of the raw log store

The handler applies the edit to the persistent logs, makes the `LazyDelete`s of the created logs and
releases those of the deleted ones. Applying the edit acts log by log, so the order in which its
entries are met does not matter.
-/

namespace OmegaOsx.MlsDisk

open RawLogStoreEdit List Table Option

variable {state state' : RawLogStoreState}
  {owns : RawLogId → ChunkId → Prop} {tail : RawLogTail} {tails : Tid → RawLogId → ChunkId → Prop}

variable {edit : RawLogStoreEdit} {l : RawLogId} {persistent : RawLogStoreState} {tid : Tid}

namespace RawLogStore

variable {β : Type}

/-- The entry of a log after an entry of the edit, where applying it succeeds. -/
def RawLogEdit.applied (old : Option RawLogEntry) : RawLogEdit → Option RawLogEntry
  | .create tail => some ⟨⟨tail.chunks, tail.numBlocks⟩⟩
  | .append tail => old.map fun entry =>
      ⟨⟨entry.head.chunks ++ tail.chunks, entry.head.numBlocks + tail.numBlocks⟩⟩
  | .delete => none

theorem head_append_ok {head head' : RawLogHead} :
    head.append tail = .ok head' ↔ head.numBlocks + tail.numBlocks < 2 ^ 32 ∧
      head' = ⟨head.chunks ++ tail.chunks, head.numBlocks + tail.numBlocks⟩ := by
  unfold RawLogHead.append
  rw [bind_ok]
  constructor
  · rintro ⟨sum, add, eq⟩
    obtain ⟨fits, rfl⟩ := addU32_ok.mp add
    exact ⟨fits, (Except.ok.inj eq).symm⟩
  · rintro ⟨fits, rfl⟩
    exact ⟨_, addU32_ok.mpr ⟨fits, rfl⟩, rfl⟩

theorem appendLog_ok : state.appendLog l tail = .ok state' ↔ ∃ entry, state.lookup l = some entry ∧
      entry.head.numBlocks + tail.numBlocks < 2 ^ 32 ∧ state' = state.insert l
        ⟨⟨entry.head.chunks ++ tail.chunks, entry.head.numBlocks + tail.numBlocks⟩⟩ := by
  unfold RawLogStoreState.appendLog
  cases state.lookup l with
  | none => exact ⟨(nomatch ·), fun ⟨_, found, _⟩ => nomatch found⟩
  | some entry =>
    rw [bind_ok]
    constructor
    · rintro ⟨head, append, eq⟩
      obtain ⟨fits, rfl⟩ := head_append_ok.mp append
      exact ⟨entry, rfl, fits, (Except.ok.inj eq).symm⟩
    · rintro ⟨_, ⟨⟩, fits, rfl⟩
      exact ⟨_, head_append_ok.mpr ⟨fits, rfl⟩, rfl⟩

theorem applyEntry_lookup {e : RawLogEdit} (run : state.applyEntry ⟨l, e⟩ = .ok state') (l' : RawLogId) :
    state'.lookup l' = if l' = l then RawLogEdit.applied (state.lookup l) e else state.lookup l' := by
  cases e with
  | create tail =>
    obtain ⟨entry, found, -, rfl⟩ := appendLog_ok.mp run
    cases (AList.lookup_insert state).symm.trans found
    rw [lookup_insert_ite, lookup_insert_ite]
    by_cases same : l' = l
    · rw [if_pos same, if_pos same]
      show some _ = some _
      rw [RawLogHead.new, zero_add, nil_append]
    · rw [if_neg same, if_neg same, if_neg same]
  | append tail =>
    obtain ⟨entry, found, -, rfl⟩ := appendLog_ok.mp run
    rw [lookup_insert_ite, found]
    rfl
  | delete =>
    cases run
    exact lookup_erase_ite

section

variable (run : state.apply edit = .ok state')
include run

/-- Applying an edit acts log by log. -/
theorem apply_lookup (l : RawLogId) : state'.lookup l =
      (edit.lookup l).elim (state.lookup l) (RawLogEdit.applied (state.lookup l)) :=
  lookup_foldlM applyEntry_lookup run l

/-- An edit that appends to a log applies only if the log is there. -/
theorem apply_append (found : edit.lookup l = some (.append tail)) :
    ∃ entry, state.lookup l = some entry ∧ entry.head.numBlocks + tail.numBlocks < 2 ^ 32 := by
  obtain ⟨mid, mid', lookup, step⟩ := step_of_foldlM
    (fun step l' other => (applyEntry_lookup step l').trans (if_neg other)) run found
  obtain ⟨entry, at_l, fits, -⟩ := appendLog_ok.mp step
  exact ⟨entry, lookup ▸ at_l, fits⟩

/-- Where a log comes from that is there after an edit. -/
theorem apply_some {entry : RawLogEntry} (found : state'.lookup l = some entry) :
    (edit.lookup l = none ∧ state.lookup l = some entry) ∨
      (∃ tail, edit.lookup l = some (.create tail) ∧ entry = ⟨⟨tail.chunks, tail.numBlocks⟩⟩) ∨
      ∃ tail old, edit.lookup l = some (.append tail) ∧ state.lookup l = some old ∧
        entry = ⟨⟨old.head.chunks ++ tail.chunks, old.head.numBlocks + tail.numBlocks⟩⟩ := by
  rw [apply_lookup run] at found
  cases e : edit.lookup l with
  | none =>
    rw [e] at found
    exact .inl ⟨rfl, found⟩
  | some e' =>
    rw [e] at found
    cases e' with
    | create tail =>
      cases found
      exact .inr (.inl ⟨tail, rfl, rfl⟩)
    | append tail =>
      obtain ⟨old, head, rfl⟩ := map_eq_some_iff.mp found
      exact .inr (.inr ⟨tail, old, rfl, head, rfl⟩)
    | delete => cases found

end

/-- Creation of the `LazyDelete`s of the created logs. -/
theorem addLazyDeletes_eq (s : RawLogStore β) (logIds : List RawLogId) :
    ∃ lazyDeletes, logIds.foldl addLazyDelete s = { s with lazyDeletes } ∧ ∀ l,
      lazyDeletes.lookup l = if l ∈ logIds then (s.lazyDeletes.lookup l).or (s.persistent.lookup l)
        else s.lazyDeletes.lookup l := by
  induction logIds generalizing s with
  | nil => exact ⟨s.lazyDeletes, rfl, fun l => (if_neg not_mem_nil).symm⟩
  | cons logId logIds ih =>
    obtain ⟨lazy1, eq1, at1⟩ : ∃ lazyDeletes, s.addLazyDelete logId = { s with lazyDeletes } ∧
        ∀ l, lazyDeletes.lookup l = if l = logId then
          (s.lazyDeletes.lookup l).or (s.persistent.lookup l) else s.lazyDeletes.lookup l := by
      unfold addLazyDelete
      split
      · next entry found =>
        split
        · next some =>
          obtain ⟨lazy, has⟩ := isSome_iff_exists.mp some
          refine ⟨s.lazyDeletes, rfl, fun l => ?_⟩
          split
          · next same => rw [same, has]; rfl
          · rfl
        · next none =>
          refine ⟨_, rfl, fun l => ?_⟩
          rw [lookup_insert_ite]
          split
          · next same =>
            rw [same, found, not_isSome_iff_eq_none.mp none]
            rfl
          · rfl
      · next absent =>
        refine ⟨s.lazyDeletes, rfl, fun l => ?_⟩
        split
        · next same => rw [same, absent, or_none]
        · rfl
    obtain ⟨lazy2, eq2, at2⟩ := ih { s with lazyDeletes := lazy1 }
    refine ⟨lazy2, ?_, fun l => ?_⟩
    · rw [foldl_cons, eq1, eq2]
    rw [at2, at1]
    by_cases same : l = logId
    · have mem : l ∈ logId :: logIds := mem_cons.mpr (.inl same)
      split
      · rw [Option.or_assoc, Option.or_self]
      · rfl
    · rw [if_neg same]
      simp only [mem_cons, same, false_or]

variable {capacity : Nat} {s : RawLogStore β}

section

variable (owned : Owned capacity s.chunks owns tails) (current : ∃ edit, s.chunks.ongoing.lookup tid = some edit)
include owned current

/-- One deleted log: if no handle shares its `LazyDelete`, the chunks of that are given back. -/
theorem doLazyDelete_run {logId : RawLogId}
    (mine : ∀ lazy, s.lazyDeletes.lookup logId = some lazy →
      lazy.head.chunks.Nodup ∧ ∀ i ∈ lazy.head.chunks, owns logId i) :
    ∃ chunks lazyDeletes ids, doLazyDelete tid s logId = .ok { s with chunks, lazyDeletes } ∧
      (∀ l, lazyDeletes.lookup l = if l = logId then none else s.lazyDeletes.lookup l) ∧
      Owned capacity chunks (fun l i => owns l i ∧ (l = logId → s.isShared l = true)) tails ∧
      ReleasedBy tid s.chunks ids chunks ∧ (∀ i ∈ ids, owns logId i) ∧
      ∀ lazy, s.lazyDeletes.lookup logId = some lazy → s.isShared logId = false → lazy.head.chunks ⊆ ids := by
  have fewer : Owned capacity s.chunks (fun l i => owns l i ∧ (l = logId → s.isShared l = true))
      tails := owned.mono (fun _ _ h => h.1) fun _ _ _ h => h
  unfold doLazyDelete
  split
  · next absent =>
    refine ⟨s.chunks, s.lazyDeletes, [], rfl, fun l => ?_, fewer, .refl tid _, nofun, ?_⟩
    · split
      · next same => exact same ▸ absent
      · rfl
    · intro lazy found
      cases absent.symm.trans found
  · next lazy found =>
    obtain ⟨lazyNodup, lazyOwns⟩ := mine lazy found
    dsimp only
    split
    · next shared =>
      refine ⟨s.chunks, _, [], rfl, fun l => lookup_erase_ite, fewer, .refl tid _, nofun, ?_⟩
      intro _ _ alone
      cases shared.symm.trans alone
    · next alone =>
      obtain ⟨edit, current⟩ := current
      have others : ∀ l i, owns l i ∧ (l = logId → s.isShared l = true) → owns l i ∧
        i ∉ lazy.head.chunks := by
        rintro l i ⟨own, shared⟩
        refine ⟨own, fun mem => ?_⟩
        cases owned.ownsUnique own (lazyOwns i mem)
        exact alone (shared rfl)
      obtain ⟨chunks, freed, released, owned'⟩ := owned.gave current lazyNodup
        (fun i mem => .inr ⟨logId, lazyOwns i mem⟩) others
        fun _ _ i tail => ⟨tail, fun mem => owned.tail_not_owned tail (lazyOwns i mem)⟩
      refine ⟨chunks, _, lazy.head.chunks, ?_, fun l => lookup_erase_ite, owned', released,
        lazyOwns, fun lazy' found' _ => ?_⟩
      · unfold deallocChunks
        rw [freed]
        rfl
      · cases found.symm.trans found'
        exact List.Subset.refl _

/-- Releasing the `LazyDelete`s of the deleted logs: those that no handle shares give their chunks
back. -/
theorem doLazyDeletes_run {logIds : List RawLogId}
    (nodup : logIds.Nodup) (mine : ∀ l ∈ logIds, ∀ lazy, s.lazyDeletes.lookup l = some lazy →
      lazy.head.chunks.Nodup ∧ ∀ i ∈ lazy.head.chunks, owns l i) : ∃ chunks lazyDeletes ids,
      logIds.foldlM (doLazyDelete tid) s = .ok { s with chunks, lazyDeletes } ∧
      (∀ l, lazyDeletes.lookup l = if l ∈ logIds then none else s.lazyDeletes.lookup l) ∧
      Owned capacity chunks (fun l i => owns l i ∧ (l ∈ logIds → s.isShared l = true)) tails ∧
      ReleasedBy tid s.chunks ids chunks ∧ (∀ i ∈ ids, ∃ l ∈ logIds, owns l i) ∧
      ∀ l ∈ logIds, ∀ lazy, s.lazyDeletes.lookup l = some lazy → s.isShared l = false →
        lazy.head.chunks ⊆ ids := by
  induction logIds generalizing s owns with
  | nil =>
    refine ⟨s.chunks, s.lazyDeletes, [], rfl, fun l => (if_neg not_mem_nil).symm, ?_, .refl tid _, nofun, nofun⟩
    exact owned.mono (fun _ _ h => h.1) fun _ _ _ h => h
  | cons logId logIds ih =>
    obtain ⟨notin, nodup⟩ := nodup_cons.mp nodup
    -- one round, then the induction hypothesis with what the logs own after it
    obtain ⟨chunks1, lazy1, ids1, run1, at1, owned1, released1, origin1, freed1⟩ :=
      doLazyDelete_run owned current (mine logId mem_cons_self)
    have current1 : ∃ edit, chunks1.ongoing.lookup tid = some edit := by
      obtain ⟨edit, found⟩ := current
      obtain ⟨edit', found', -⟩ := released1.entry found
      exact ⟨edit', found'⟩
    have rest {l : RawLogId} (mem : l ∈ logIds) : l ≠ logId := fun same => notin (same ▸ mem)
    obtain ⟨chunks2, lazy2, ids2, run2, at2, owned2, released2, origin2, freed2⟩ :=
      ih (s := { s with chunks := chunks1, lazyDeletes := lazy1 }) owned1 current1 nodup
        fun l mem lazy found => by
          rw [at1, if_neg (rest mem)] at found
          obtain ⟨lazyNodup, lazyOwns⟩ := mine l (mem_cons_of_mem _ mem) lazy found
          exact ⟨lazyNodup, fun i mem' => ⟨lazyOwns i mem', fun same => absurd same (rest mem)⟩⟩
    refine ⟨chunks2, lazy2, ids1 ++ ids2, ?_, fun l => ?_, ?_, released1.trans released2 ?_, ?_, ?_⟩
    · rw [foldlM_cons, run1]
      exact run2
    · rw [at2]
      rw [at1]
      by_cases same : l = logId
      · simp [same]
      · simp [same]
    · refine owned2.mono (fun l i h => ⟨⟨h.1, fun same => h.2 (same ▸ mem_cons_self)⟩, fun mem => ?_⟩)
        fun _ _ _ h => h
      exact h.2 (mem_cons_of_mem _ mem)
    · intro i mem mem'
      obtain ⟨l, inside, own, -⟩ := origin2 i mem'
      exact rest inside (owned.ownsUnique own (origin1 i mem))
    · intro i mem
      rcases mem_append.mp mem with mem | mem
      · exact ⟨logId, mem_cons_self, origin1 i mem⟩
      · obtain ⟨l, inside, own, -⟩ := origin2 i mem
        exact ⟨l, mem_cons_of_mem _ inside, own⟩
    · intro l mem lazy found alone
      rcases mem_cons.mp mem with rfl | mem
      · exact subset_append_of_subset_left _ (freed1 lazy found alone)
      · refine subset_append_of_subset_right _ (freed2 l mem lazy ?_ alone)
        rw [at1, if_neg (rest mem)]
        exact found

end

namespace Sound

variable {lazyOf : RawLogId → Option RawLogEntry} {t : RawLogStore β}

/-- A log's `LazyDelete` is made when its creation commits. -/
def lazyAfter (lazyOf : RawLogId → Option RawLogEntry) (edit : RawLogStoreEdit)
    (persistent : RawLogStoreState) (l : RawLogId) : Option RawLogEntry :=
  match edit.lookup l with
  | some (.create _) => persistent.lookup l
  | _ => lazyOf l

theorem lazyAfter_of_create (e : edit.lookup l = some (.create tail)) :
    lazyAfter lazyOf edit persistent l = persistent.lookup l := by
  unfold lazyAfter
  rw [e]

theorem lazyAfter_of_not_create (e : ∀ tail, edit.lookup l ≠ some (.create tail)) :
    lazyAfter lazyOf edit persistent l = lazyOf l := by
  unfold lazyAfter
  split
  · next tail found => exact absurd found (e tail)
  · rfl

/-- What the `LazyDelete` of the table would free is owned by its log. -/
theorem owns_of_lazy (sound : Sound capacity lazyOf s) {lazy : RawLogEntry} {i : ChunkId}
    (table : s.lazyDeletes.lookup l = some lazy) (mem : i ∈ lazy.head.chunks) : s.Owns l i := by
  obtain ⟨entry, head⟩ := ne_none_iff_exists'.mp fun none => by
    cases (sound.live.mp none).symm.trans table
  exact .inl ⟨entry, head, sound.lazySub table head mem⟩

/-- The `LazyDelete`s and the chunks behind the commit handler: what only a deleted log has is given
back. -/
structure Handled (capacity : Nat) (s : RawLogStore β) (tid : Tid) (edit : RawLogStoreEdit)
    (persistent : RawLogStoreState) (chunks : ChunkSystem) (lazyDeletes : Table RawLogId RawLogEntry)
    (ids : List ChunkId) : Prop where
  table : ∀ l, lazyDeletes.lookup l = if edit.lookup l = some .delete then none
    else lazyAfter s.lazyDeletes.lookup edit persistent l
  owned : Owned capacity chunks
    (fun l i => s.Owns l i ∧ (edit.lookup l = some .delete → ∃ lazy, s.Shares l lazy)) s.InTail
  released : ReleasedBy tid s.chunks ids chunks
  origin : ∀ i ∈ ids, ∃ l, s.Owns l i
  freed : ∀ l lazy, edit.lookup l = some .delete → s.lazyDeletes.lookup l = some lazy →
    (¬ ∃ lazy, s.Shares l lazy) → lazy.head.chunks ⊆ ids

/-- Once the edit applies to the persistent logs, the commit handler of the store succeeds. -/
theorem onCommit_run (sound : Sound capacity lazyOf s) (cur : s.currentEdit tid = .ok edit)
    (applied : s.persistent.apply edit = .ok persistent) :
    ∃ chunks lazyDeletes ids, s.onCommit tid = .ok { s with persistent, chunks, lazyDeletes } ∧
      Handled capacity s tid edit persistent chunks lazyDeletes ids := by
  obtain ⟨current, ongoing, -⟩ := bind_ok.mp cur
  have nodup : edit.iterDeletedLogs.Nodup := nodup_keysWith _ edit
  obtain ⟨lazy1, eq1, at1⟩ := addLazyDeletes_eq { s with persistent } edit.iterCreatedLogs
  have unchanged {l : RawLogId} (gone : edit.lookup l = some .delete) : lazy1.lookup l = s.lazyDeletes.lookup l := by
    refine (at1 l).trans (if_neg fun mem => ?_)
    obtain ⟨tail, found⟩ := mem_iterCreatedLogs.mp mem
    cases gone.symm.trans found
  obtain ⟨chunks, lazyDeletes, ids, run, at2, owned, released, origin, freed⟩ :=
    doLazyDeletes_run (s := { s with persistent, lazyDeletes := lazy1 }) sound.owned
      ⟨current, ChunkSystem.current_ok.mp ongoing⟩ nodup fun l mem lazy found => by
        rw [unchanged (mem_iterDeletedLogs.mp mem)] at found
        exact ⟨sound.lazyNodup (sound.lazyTable found), fun i mem' => sound.owns_of_lazy found mem'⟩
  refine ⟨chunks, lazyDeletes, ids, ?_, fun l => ?_, ?_, released, ?_, ?_⟩
  · unfold onCommit
    rw [cur, ok_bind, applied, ok_bind, eq1]
    exact run
  · rw [at2]
    by_cases gone : edit.lookup l = some .delete
    · rw [if_pos gone, if_pos (mem_iterDeletedLogs.mpr gone)]
    rw [if_neg gone, if_neg (mt mem_iterDeletedLogs.mp gone), at1]
    by_cases mem : l ∈ edit.iterCreatedLogs
    · obtain ⟨tail, e⟩ := mem_iterCreatedLogs.mp mem
      have absent : s.lazyDeletes.lookup l = none := by
        cases table : s.lazyDeletes.lookup l with
        | none => rfl
        | some lazy =>
          have none := (sound.creating (editAt_of_current cur e)).2
          cases (sound.lazyTable table).symm.trans none
      rw [if_pos mem, absent, lazyAfter_of_create e]
      rfl
    · rw [if_neg mem, lazyAfter_of_not_create fun tail e => mem (mem_iterCreatedLogs.mpr ⟨tail, e⟩)]
  · exact owned.mono (fun l i h => ⟨h.1, fun mem => isShared_iff.mpr (h.2 (mem_iterDeletedLogs.mp mem))⟩)
      fun _ _ _ h => h
  · exact fun i mem => (origin i mem).imp fun _ => And.right
  · intro l lazy gone found alone
    refine freed l (mem_iterDeletedLogs.mpr gone) lazy ((unchanged gone).trans found) ?_
    exact Bool.eq_false_iff.mpr fun shared => alone (isShared_iff.mp shared)

theorem commit_ok (sound : Sound capacity lazyOf s) (run : s.commit tid = .ok t) :
    ∃ edit persistent mid lazyDeletes ids chunks, s.currentEdit tid = .ok edit ∧
      s.persistent.apply edit = .ok persistent ∧ Handled capacity s tid edit persistent mid lazyDeletes ids ∧
      mid.commit tid = .ok chunks ∧
      t = { s with persistent, chunks, lazyDeletes, edits := s.edits.erase tid } := by
  obtain ⟨mid, handler, run⟩ := bind_ok.mp run
  obtain ⟨chunks, ended, eq⟩ := bind_ok.mp run
  cases eq
  obtain ⟨edit, cur, rest⟩ := bind_ok.mp handler
  obtain ⟨persistent, applied, -⟩ := bind_ok.mp rest
  obtain ⟨mid, lazyDeletes, ids, run', handled⟩ := sound.onCommit_run cur applied
  cases handler.symm.trans run'
  exact ⟨edit, persistent, mid, lazyDeletes, ids, chunks, cur, applied, handled, ended, rfl⟩

section Applied

/-! The heads of the logs after the commit: an old head, a tail, or both. -/

variable {entry : RawLogEntry}

theorem origin_of_apply (cur : s.currentEdit tid = .ok edit) (applied : s.persistent.apply edit = .ok persistent)
    (found : persistent.lookup l = some entry) {i : ChunkId} (mem : i ∈ entry.head.chunks) :
    s.Owns l i ∧ edit.lookup l ≠ some .delete ∨ s.InTail tid l i := by
  rcases apply_some applied found with ⟨e, head⟩ | ⟨tail, e, rfl⟩ | ⟨tail, old, e, head, rfl⟩
  · exact .inl ⟨.inl ⟨entry, head, mem⟩, by rw [e]; exact nofun⟩
  · exact .inr ⟨_, tail, editAt_of_current cur e, rfl, mem⟩
  · rcases mem_append.mp mem with mem | mem
    · exact .inl ⟨.inl ⟨old, head, mem⟩, by rw [e]; exact nofun⟩
    · exact .inr ⟨_, tail, editAt_of_current cur e, rfl, mem⟩

variable (sound : Sound capacity lazyOf s)
include sound

theorem nodup_of_apply (cur : s.currentEdit tid = .ok edit)
    (applied : s.persistent.apply edit = .ok persistent) (found : persistent.lookup l = some entry) :
    entry.head.chunks.Nodup := by
  rcases apply_some applied found with ⟨e, head⟩ | ⟨tail, e, rfl⟩ | ⟨tail, old, e, head, rfl⟩
  · exact sound.headNodup head
  · exact sound.tailNodup (editAt_of_current cur e) rfl
  · have at_tid := editAt_of_current cur e
    refine (sound.headNodup head).append (sound.tailNodup at_tid rfl) fun i mem mem' => ?_
    exact sound.owned.tail_not_owned ⟨_, tail, at_tid, rfl, mem'⟩ (.inl ⟨old, head, mem⟩)

variable (applied : s.persistent.apply edit = .ok persistent)
include applied

/-- The table of `LazyDelete`s has the logs that are not deleted. -/
theorem live_of_apply
    (l : RawLogId) : persistent.lookup l = none ↔
      (if edit.lookup l = some .delete then none else lazyAfter s.lazyDeletes.lookup edit persistent l) = none := by
  have lookup := apply_lookup applied l
  cases e : edit.lookup l with
  | none =>
    rw [lazyAfter_of_not_create (e ▸ nofun), lookup, e]
    exact sound.live
  | some e' =>
    cases e' with
    | create tail => rw [if_neg nofun, lazyAfter_of_create e]
    | append tail =>
      rw [lazyAfter_of_not_create (e ▸ nofun), lookup, e]
      exact map_eq_none_iff.trans sound.live
    | delete =>
      rw [lookup, e]
      exact iff_of_true rfl rfl

/-- A `LazyDelete` of the table has chunks of the head only. -/
theorem lazySub_of_apply
    {lazy : RawLogEntry} (table : lazyAfter s.lazyDeletes.lookup edit persistent l = some lazy)
    (found : persistent.lookup l = some entry) : lazy.head.chunks ⊆ entry.head.chunks := by
  rcases apply_some applied found with ⟨e, head⟩ | ⟨tail, e, -⟩ | ⟨tail, old, e, head, rfl⟩
  · rw [lazyAfter_of_not_create (e ▸ nofun)] at table
    exact sound.lazySub table head
  · rw [lazyAfter_of_create e] at table
    cases table.symm.trans found
    exact List.Subset.refl _
  · rw [lazyAfter_of_not_create (e ▸ nofun)] at table
    exact subset_append_of_subset_left _ (sound.lazySub table head)

end Applied

/-- No log loses its `LazyDelete`. -/
theorem commit (sound : Sound capacity lazyOf s) (run : s.commit tid = .ok t) :
    ∃ lazyOf', Sound capacity lazyOf' t ∧ ∀ l, lazyOf l ≠ none → lazyOf' l ≠ none := by
  obtain ⟨edit, persistent, mid, lazyDeletes, ids, chunks, cur, applied, handled, ended, rfl⟩ := sound.commit_ok run
  have others {tid' : Tid} {l : RawLogId} {e : RawLogEdit} (h : EditAt
      { s with persistent, chunks, lazyDeletes, edits := s.edits.erase tid } tid' l e) :
      tid' ≠ tid ∧ s.EditAt tid' l e := editAt_erase rfl h
  have uncreated {l : RawLogId} {tail : RawLogTail} (found : edit.lookup l = some (.create tail)) :
      lazyOf l = none := (sound.creating (editAt_of_current cur found)).2
  have keeps : ∀ l, lazyOf l ≠ none → lazyAfter lazyOf edit persistent l ≠ none := by
    intro l some
    unfold lazyAfter
    split
    · next e => exact absurd (uncreated e) some
    · exact some
  refine ⟨lazyAfter lazyOf edit persistent,
    { owned := handled.owned.commit ended (fun l i h => ?_) fun tid' l i h => ?_
      tailNodup := fun h has => sound.tailNodup (others h).2 has
      headNodup := sound.nodup_of_apply cur applied
      live := fun {l} => ?_
      lazySub := fun {l lazy entry} h h' => ?_
      lazyTable := fun {l lazy} h => ?_
      lazyHandle := fun {l lazy} h => ?_
      lazyNodup := fun {l lazy} h => ?_
      lazyIssued := fun {l} h => ?_
      creating := fun {tid' l tail} h => ?_
      creator := fun h h' => sound.creator (others h).2 (others h').2
      appending := fun h => keeps _ (sound.appending (others h).2) }, keeps⟩
  · rcases h with ⟨entry, found, mem⟩ | ⟨absent, lazy, holder, mem⟩
    · exact (origin_of_apply cur applied found mem).imp_left fun h => ⟨h.1, fun gone => absurd gone h.2⟩
    · -- a handle still shares the `LazyDelete`, which was in the table or has left it before
      refine .inl ⟨?_, fun _ => ⟨lazy, holder⟩⟩
      cases table : s.lazyDeletes.lookup l with
      | none => exact .inr ⟨table, lazy, holder, mem⟩
      | some lazy' =>
        cases (sound.lazyTable table).symm.trans (sound.lazyHandle holder)
        exact sound.owns_of_lazy table mem
  · obtain ⟨e, tail, at_tid, has, mem⟩ := h
    exact ⟨⟨e, tail, (others at_tid).2, has, mem⟩, (others at_tid).1⟩
  · rw [handled.table]
    exact sound.live_of_apply applied l
  · rw [handled.table] at h
    split at h
    · cases h
    · exact sound.lazySub_of_apply applied h h'
  · rw [handled.table] at h
    split at h
    · cases h
    unfold lazyAfter at h ⊢
    split at h
    · exact h
    · exact sound.lazyTable h
  · have := sound.lazyHandle h
    unfold lazyAfter
    split
    · next e => cases (uncreated e).symm.trans this
    · exact this
  · unfold lazyAfter at h
    split at h
    · exact sound.nodup_of_apply cur applied h
    · exact sound.lazyNodup h
  · unfold lazyAfter at h
    split at h
    · next e => exact (sound.creating (editAt_of_current cur e)).1
    · exact sound.lazyIssued h
  · obtain ⟨other, old⟩ := others h
    refine ⟨(sound.creating old).1, ?_⟩
    unfold lazyAfter
    split
    · next e => exact absurd (sound.creator old (editAt_of_current cur e)) other
    · exact (sound.creating old).2

end Sound

/-- Every operation of the store keeps its invariant. -/
theorem Sound.step {lazyOf : RawLogId → Option RawLogEntry} {t : RawLogStore β}
    {op : RawLogOp β} (sound : Sound capacity lazyOf s) (run : s.exec op = .ok t) :
    ∃ lazyOf', Sound capacity lazyOf' t ∧ ∀ l, lazyOf l ≠ none → lazyOf' l ≠ none := by
  cases op with
  | newTx tid =>
    cases run
    exact ⟨lazyOf, sound.newTx tid, fun _ h => h⟩
  | create tid => exact ⟨lazyOf, sound.createLog run, fun _ h => h⟩
  | openLog tid logId canAppend => exact ⟨lazyOf, sound.openLog run, fun _ h => h⟩
  | append tid h buf =>
    obtain ⟨pos, run⟩ := ChunkSystem.snd_ok.mp run
    exact ⟨lazyOf, sound.append run, fun _ h => h⟩
  | delete tid logId => exact ⟨lazyOf, sound.deleteLog run, fun _ h => h⟩
  | drop tid h => exact ⟨lazyOf, sound.dropHandle run, fun _ h => h⟩
  | commit tid => exact sound.commit run
  | abort tid => exact ⟨lazyOf, sound.abort run, fun _ h => h⟩

end RawLogStore

end OmegaOsx.MlsDisk
