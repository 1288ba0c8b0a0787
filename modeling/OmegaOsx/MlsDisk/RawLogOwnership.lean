import OmegaOsx.MlsDisk.RawLogWriter

/-!
# Who owns a chunk

A chunk is allocated for the tail of a log in some transaction; when that commits, the log owns it;
when the log is deleted, the `LazyDelete` of the log does, until its last holder goes. `Owned` states
this over the allocator for any notion of owner: a chunk has at most one owner, it is held by the
committed transactions, and no ongoing transaction has it in its edit. So whenever an owner gives
chunks back, it may (`ChunkSystem.MayDealloc`).
-/

namespace OmegaOsx.MlsDisk

open ChunkSystem ChunkSystem.Inv

/-- `owns l i`: the log `l` owns the chunk `i`. `tails tid l i`: the chunk is in the tail that the
transaction `tid` has for `l`. -/
structure Owned (capacity : Nat) (c : ChunkSystem) (owns : RawLogId → ChunkId → Prop)
    (tails : Tid → RawLogId → ChunkId → Prop) : Prop where
  inv : c.Inv capacity
  tailAlloc : ∀ {tid l i}, tails tid l i →
    ∃ edit, c.ongoing.lookup tid = some edit ∧ edit.lookup i = some .alloc
  tailUnique : ∀ {tid l l' i}, tails tid l i → tails tid l' i → l = l'
  ownsHeld : ∀ {l i}, owns l i → i ∈ held c.committed
  ownsQuiet : ∀ {l i tid edit}, owns l i → c.ongoing.lookup tid = some edit → edit.lookup i = none
  ownsUnique : ∀ {l l' i}, owns l i → owns l' i → l = l'

/-- The effect of giving back the chunks `ids` in the transaction `tid`, read off the tables. -/
structure ReleasedBy (tid : Tid) (c : ChunkSystem) (ids : List ChunkId) (c' : ChunkSystem) : Prop where
  committed : c'.committed = c.committed
  others : ∀ tid', tid' ≠ tid → c'.ongoing.lookup tid' = c.ongoing.lookup tid'
  entry : ∀ {edit}, c.ongoing.lookup tid = some edit →
    ∃ edit', c'.ongoing.lookup tid = some edit' ∧ ∀ i, edit'.lookup i =
      if i ∈ ids then (if edit.lookup i = some .alloc then none else some .dealloc)
      else edit.lookup i

namespace ReleasedBy

variable {tid : Tid} {c c' c'' : ChunkSystem} {ids ids' : List ChunkId}

theorem refl (tid : Tid) (c : ChunkSystem) : ReleasedBy tid c [] c where
  committed := rfl
  others _ _ := rfl
  entry {edit} found := ⟨edit, found, fun _ => (if_neg List.not_mem_nil).symm⟩

theorem trans (first : ReleasedBy tid c ids c') (second : ReleasedBy tid c' ids' c'')
    (apart : ∀ i ∈ ids, i ∉ ids') : ReleasedBy tid c (ids ++ ids') c'' where
  committed := second.committed.trans first.committed
  others tid' other := (second.others tid' other).trans (first.others tid' other)
  entry := by
    intro edit found
    obtain ⟨edit', found', entries'⟩ := first.entry found
    obtain ⟨edit'', found'', entries''⟩ := second.entry found'
    refine ⟨edit'', found'', fun i => ?_⟩
    rw [entries'', entries']
    by_cases mem : i ∈ ids
    · simp [apart i mem]
    · simp [mem]

theorem of_run {capacity : Nat} (inv : c.Inv capacity) {edit : ChunkAllocEdit}
    (found : c.ongoing.lookup tid = some edit) (nodup : ids.Nodup)
    (may : ∀ i ∈ ids, c.MayDealloc tid i) :
    ∃ c', c.deallocBatch tid ids = .ok c' ∧ c'.Inv capacity ∧ ReleasedBy tid c ids c' := by
  obtain ⟨state', edit', run, inv', gave⟩ := inv.deallocBatch_run found nodup may
  refine ⟨_, run, inv', rfl, fun tid' other => ?_, fun found' => ?_⟩
  · exact lookup_update.trans (if_neg other)
  · cases found.symm.trans found'
    exact ⟨edit', lookup_update.trans (if_pos rfl), gave.entry⟩

end ReleasedBy

namespace Owned

variable {capacity : Nat} {c c' : ChunkSystem} {owns owns' : RawLogId → ChunkId → Prop}
  {tails tails' : Tid → RawLogId → ChunkId → Prop} {tid : Tid}

section

variable (owned : Owned capacity c owns tails)

include owned

variable {l l' : RawLogId} {i : ChunkId} {ids : List ChunkId}

/-- A chunk in a tail is not owned by a log. -/
theorem tail_not_owned (tail : tails tid l i) : ¬ owns l' i := fun owns => by
  obtain ⟨edit, found, alloc⟩ := owned.tailAlloc tail
  exact owned.inv.fresh found alloc (owned.ownsHeld owns)

/-- Two tails of different transactions have no chunk in common. -/
theorem tail_tid {tid' : Tid} (tail : tails tid l i) (tail' : tails tid' l' i) : tid = tid' := by
  obtain ⟨edit, found, alloc⟩ := owned.tailAlloc tail
  obtain ⟨edit', found', alloc'⟩ := owned.tailAlloc tail'
  exact owned.inv.owner found found' (by rw [alloc]; exact nofun) (by rw [alloc']; exact nofun)

theorem mono (fewer : ∀ l i, owns' l i → owns l i) (fewerTails : ∀ tid l i, tails' tid l i → tails tid l i) :
    Owned capacity c owns' tails' where
  inv := owned.inv
  tailAlloc h := owned.tailAlloc (fewerTails _ _ _ h)
  tailUnique h h' := owned.tailUnique (fewerTails _ _ _ h) (fewerTails _ _ _ h')
  ownsHeld h := owned.ownsHeld (fewer _ _ h)
  ownsQuiet h := owned.ownsQuiet (fewer _ _ h)
  ownsUnique h h' := owned.ownsUnique (fewer _ _ h) (fewer _ _ h')

theorem newTx (tid : Tid) : Owned capacity (c.newTx tid) owns tails := by
  have old : ∀ {tid' edit}, c.ongoing.lookup tid' = some edit → (c.newTx tid).ongoing.lookup tid' = some edit := by
    intro tid' edit found
    unfold ChunkSystem.newTx
    split
    · exact found
    · next absent =>
      rw [Table.lookup_insert_ite, if_neg fun same => absent (by rw [← same, found]; rfl)]
      exact found
  have committed : (c.newTx tid).committed = c.committed := by
    unfold ChunkSystem.newTx
    split <;> rfl
  refine { owned with
      inv := owned.inv.newTx tid
      tailAlloc := fun h => ?_
      ownsHeld := fun h => committed ▸ owned.ownsHeld h
      ownsQuiet := fun h found => ?_ }
  · obtain ⟨edit, found, alloc⟩ := owned.tailAlloc h
    exact ⟨edit, old found, alloc⟩
  unfold ChunkSystem.newTx at found
  split at found
  · exact owned.ownsQuiet h found
  rw [Table.lookup_insert_ite] at found
  split at found
  · cases found
    rfl
  · exact owned.ownsQuiet h found

/-- New chunks go to the tail of one log. -/
theorem took {count : Nat} (run : c.allocBatch tid count = .ok (ids, c'))
    (more : ∀ tid' l' i, tails' tid' l' i → tails tid' l' i ∨ tid' = tid ∧ l' = l ∧ i ∈ ids) :
    Owned capacity c' owns tails' := by
  obtain ⟨-, inv', -, -, free, edit, edit', state', found, recorded, -, rfl⟩ := owned.inv.allocBatch run
  have untouched {i : ChunkId} (mem : i ∈ ids) := owned.inv.untouched (free i mem)
  have now : (c.update tid state' edit').ongoing.lookup tid = some edit' := lookup_update.trans (if_pos rfl)
  have isNew : ∀ {tid' l' i}, tails' tid' l' i → i ∈ ids → tid' = tid ∧ l' = l := by
    intro tid' l' i h mem
    rcases more tid' l' i h with old | ⟨rfl, rfl, -⟩
    · obtain ⟨e, found', alloc⟩ := owned.tailAlloc old
      rw [(untouched mem).2 tid' e found'] at alloc
      cases alloc
    · exact ⟨rfl, rfl⟩
  exact
    { inv := inv'
      tailAlloc := fun {tid' l' i} h => by
        rcases more tid' l' i h with old | ⟨rfl, -, mem⟩
        · obtain ⟨e, found', alloc⟩ := owned.tailAlloc old
          by_cases same : tid' = tid
          · subst same
            cases found.symm.trans found'
            refine ⟨edit', now, (recorded i).trans ?_⟩
            split
            · rfl
            · exact alloc
          · exact ⟨e, lookup_update.trans ((if_neg same).trans found'), alloc⟩
        · exact ⟨edit', now, (recorded i).trans (if_pos mem)⟩
      tailUnique := fun {tid' l1 l2 i} h h' => by
        by_cases mem : i ∈ ids
        · exact (isNew h mem).2.trans (isNew h' mem).2.symm
        rcases more _ _ _ h with old | ⟨-, -, mem'⟩
        · rcases more _ _ _ h' with old' | ⟨-, -, mem'⟩
          · exact owned.tailUnique old old'
          · exact absurd mem' mem
        · exact absurd mem' mem
      ownsHeld := owned.ownsHeld
      ownsQuiet := fun {l' i tid' e} h found' => by
        have notin : i ∉ ids := fun mem => (untouched mem).1 (owned.ownsHeld h)
        rw [lookup_update] at found'
        split at found'
        · cases found'
          exact (recorded i).trans ((if_neg notin).trans (owned.ownsQuiet h found))
        · exact owned.ownsQuiet h found'
      ownsUnique := owned.ownsUnique }

/-- Chunks of the transaction's own tails and of the logs may be given back. -/
theorem gave {edit : ChunkAllocEdit} (found : c.ongoing.lookup tid = some edit)
    (nodup : ids.Nodup) (mine : ∀ i ∈ ids, (∃ l, tails tid l i) ∨ ∃ l, owns l i)
    (fewer : ∀ l i, owns' l i → owns l i ∧ i ∉ ids)
    (fewerTails : ∀ tid' l i, tails' tid' l i → tails tid' l i ∧ i ∉ ids) :
    ∃ c', c.deallocBatch tid ids = .ok c' ∧ ReleasedBy tid c ids c' ∧ Owned capacity c' owns' tails' := by
  have may : ∀ i ∈ ids, c.MayDealloc tid i := by
    intro i mem
    rcases mine i mem with ⟨l, tail⟩ | ⟨l, own⟩
    · exact .inl (owned.tailAlloc tail)
    · exact .inr ⟨owned.ownsHeld own, fun _ _ found' => owned.ownsQuiet own found'⟩
  obtain ⟨c', run, inv', released⟩ := ReleasedBy.of_run owned.inv found nodup may
  obtain ⟨edit', found', entries⟩ := released.entry found
  have same {i : ChunkId} (notin : i ∉ ids) : edit'.lookup i = edit.lookup i := (entries i).trans (if_neg notin)
  refine ⟨c', run, released,
    { inv := inv'
      tailAlloc := fun {tid' l i} h => ?_
      tailUnique := fun h h' => owned.tailUnique (fewerTails _ _ _ h).1 (fewerTails _ _ _ h').1
      ownsHeld := fun h => released.committed ▸ owned.ownsHeld (fewer _ _ h).1
      ownsQuiet := fun {l i tid' e} h at_tid => ?_
      ownsUnique := fun h h' => owned.ownsUnique (fewer _ _ h).1 (fewer _ _ h').1 }⟩
  · obtain ⟨tail, notin⟩ := fewerTails tid' l i h
    obtain ⟨e, at_tid, alloc⟩ := owned.tailAlloc tail
    by_cases self : tid' = tid
    · subst self
      cases found.symm.trans at_tid
      exact ⟨edit', found', (same notin).trans alloc⟩
    · exact ⟨e, (released.others tid' self).trans at_tid, alloc⟩
  · obtain ⟨own, notin⟩ := fewer l i h
    by_cases self : tid' = tid
    · subst self
      cases found'.symm.trans at_tid
      exact (same notin).trans (owned.ownsQuiet own found)
    · exact owned.ownsQuiet own ((released.others tid' self).symm.trans at_tid)

/-- At the commit the chunks of the transaction's tails pass to the logs. -/
theorem commit (run : c.commit tid = .ok c') (more : ∀ l i, owns' l i → owns l i ∨ tails tid l i)
    (fewerTails : ∀ tid' l i, tails' tid' l i → tails tid' l i ∧ tid' ≠ tid) :
    Owned capacity c' owns' tails' := by
  obtain ⟨edit, cur, -⟩ := bind_ok.mp run
  have found := current_ok.mp cur
  obtain ⟨ongoing, held_eq⟩ := commit_ok found run
  have going {tid' : Tid} {e : ChunkAllocEdit} (h : c'.ongoing.lookup tid' = some e) :
      tid' ≠ tid ∧ c.ongoing.lookup tid' = some e := by
    rw [ongoing] at h
    exact lookup_erase_some.mp h
  refine
    { inv := owned.inv.commit run
      tailAlloc := fun {tid' l i} h => ?_
      tailUnique := fun h h' => owned.tailUnique (fewerTails _ _ _ h).1 (fewerTails _ _ _ h').1
      ownsHeld := fun {l i} h => ?_
      ownsQuiet := fun {l i tid' e} h at_tid => ?_
      ownsUnique := fun {l l' i} h h' => ?_ }
  · obtain ⟨tail, other⟩ := fewerTails tid' l i h
    obtain ⟨e, at_tid, alloc⟩ := owned.tailAlloc tail
    exact ⟨e, ongoing ▸ lookup_erase_some.mpr ⟨other, at_tid⟩, alloc⟩
  · rw [held_eq]
    rcases more l i h with own | tail
    · exact .inr ⟨owned.ownsHeld own, by rw [owned.ownsQuiet own found]; exact nofun⟩
    · obtain ⟨e, at_tid, alloc⟩ := owned.tailAlloc tail
      cases found.symm.trans at_tid
      exact .inl alloc
  · obtain ⟨other, at_tid⟩ := going at_tid
    rcases more l i h with own | tail
    · exact owned.ownsQuiet own at_tid
    · obtain ⟨e', at_self, alloc⟩ := owned.tailAlloc tail
      by_contra theirs
      exact other (owned.inv.owner at_tid at_self theirs (by rw [alloc]; exact nofun))
  · rcases more l i h with own | tail <;> rcases more l' i h' with own' | tail'
    · exact owned.ownsUnique own own'
    · exact absurd own (owned.tail_not_owned tail')
    · exact absurd own' (owned.tail_not_owned tail)
    · exact owned.tailUnique tail tail'

theorem abort (run : c.abort tid = .ok c')
    (fewerTails : ∀ tid' l i, tails' tid' l i → tails tid' l i ∧ tid' ≠ tid) :
    Owned capacity c' owns tails' := by
  obtain ⟨ongoing, committed⟩ := abort_ok run
  refine
    { inv := owned.inv.abort run
      tailAlloc := fun {tid' l i} h => ?_
      tailUnique := fun h h' => owned.tailUnique (fewerTails _ _ _ h).1 (fewerTails _ _ _ h').1
      ownsHeld := fun h => committed ▸ owned.ownsHeld h
      ownsQuiet := fun {l i tid' e} h at_tid => ?_
      ownsUnique := owned.ownsUnique }
  · obtain ⟨tail, other⟩ := fewerTails tid' l i h
    obtain ⟨e, at_tid, alloc⟩ := owned.tailAlloc tail
    exact ⟨e, ongoing ▸ lookup_erase_some.mpr ⟨other, at_tid⟩, alloc⟩
  · rw [ongoing] at at_tid
    exact owned.ownsQuiet h (lookup_erase_some.mp at_tid).2

end

end Owned

end OmegaOsx.MlsDisk
