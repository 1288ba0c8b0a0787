import OmegaOsx.Lib.Run
import OmegaOsx.MlsDisk.ChunkAlloc

/-!
# Chunk allocation in transactions and in the journal

Concurrent transactions share the running `ChunkAllocState`; each has its own `ChunkAllocEdit`. A
commit applies the edit to the running state and appends it to the journal, which replays the
committed edits on a state of its own. `held` is what the edits mean: the chunks that the committed
transactions have and have not given back.
-/

namespace OmegaOsx.MlsDisk

open ChunkAllocEdit ChunkAllocState List Table AList ChunkAlloc Option

abbrev Tid := Nat

/-- The allocator with the data of the ongoing transactions and the edits added to the journal. -/
structure ChunkSystem where
  state : ChunkAllocState
  ongoing : Table Tid ChunkAllocEdit
  committed : List ChunkAllocEdit
  deriving DecidableEq

inductive ChunkOp
  | newTx (tid : Tid)
  | alloc (tid : Tid)
  | allocBatch (tid : Tid) (count : Nat)
  | dealloc (tid : Tid) (chunkId : ChunkId)
  | deallocBatch (tid : Tid) (chunkIds : List ChunkId)
  | commit (tid : Tid)
  | abort (tid : Tid)

variable {edit : ChunkAllocEdit} {tid : Tid} {edit' : ChunkAllocEdit} {state' : ChunkAllocState} {ids : List ChunkId}
  {s t : ChunkSystem}

namespace ChunkSystem

def init (capacity : Nat) : ChunkSystem :=
  { state := .new capacity, ongoing := ∅, committed := [] }

/-- The data of the current transaction. -/
def current (s : ChunkSystem) (tid : Tid) : Res ChunkAllocEdit :=
  match s.ongoing.lookup tid with
  | some edit => pure edit
  | none => panicWith "there should be one Tx exited on the current thread"

def update (s : ChunkSystem) (tid : Tid) (state : ChunkAllocState) (edit : ChunkAllocEdit) :
    ChunkSystem :=
  { s with state, ongoing := s.ongoing.insert tid edit }

def newTx (s : ChunkSystem) (tid : Tid) : ChunkSystem :=
  if (s.ongoing.lookup tid).isSome then s else { s with ongoing := s.ongoing.insert tid ∅ }

def alloc (s : ChunkSystem) (tid : Tid) : Res (ChunkId × ChunkSystem) := do
  let edit ← s.current tid
  let (chunkId, state, edit) ← ChunkAlloc.alloc s.state edit
  pure (chunkId, s.update tid state edit)

def allocBatch (s : ChunkSystem) (tid : Tid) (count : Nat) : Res (List ChunkId × ChunkSystem) := do
  let edit ← s.current tid
  let (chunkIds, state, edit) ← ChunkAlloc.allocBatch s.state edit count
  pure (chunkIds, s.update tid state edit)

def deallocBatch (s : ChunkSystem) (tid : Tid) (chunkIds : List ChunkId) : Res ChunkSystem := do
  let edit ← s.current tid
  let (state, edit) ← ChunkAlloc.deallocBatch s.state edit chunkIds
  pure (s.update tid state edit)

/-- The commit handlers of the allocator and of the journal. -/
def commit (s : ChunkSystem) (tid : Tid) : Res ChunkSystem := do
  let edit ← s.current tid
  if edit.entries.isEmpty then
    pure { s with ongoing := s.ongoing.erase tid }
  else
    let state ← edit.applyTo s.state
    pure { state, ongoing := s.ongoing.erase tid, committed := s.committed ++ [edit] }

def abort (s : ChunkSystem) (tid : Tid) : Res ChunkSystem := do
  let edit ← s.current tid
  let state ← ChunkAlloc.onAbort s.state edit
  pure { s with state, ongoing := s.ongoing.erase tid }

def exec (s : ChunkSystem) : ChunkOp → Res ChunkSystem
  | .newTx tid => pure (s.newTx tid)
  | .alloc tid => Prod.snd <$> s.alloc tid
  | .allocBatch tid count => Prod.snd <$> s.allocBatch tid count
  | .dealloc tid chunkId => s.deallocBatch tid [chunkId]
  | .deallocBatch tid chunkIds => s.deallocBatch tid chunkIds
  | .commit tid => s.commit tid
  | .abort tid => s.abort tid

/-- The journal's state after the committed edits. -/
def replay (capacity : Nat) (committed : List ChunkAllocEdit) : Res ChunkAllocState :=
  committed.foldlM (fun state edit => edit.applyTo state) (.newInJournal capacity)

/-! ## What the edits mean -/

/-- The chunks held after an edit. -/
def hold (held : Set ChunkId) (edit : ChunkAllocEdit) : Set ChunkId :=
  {i | edit.lookup i = some .alloc ∨ i ∈ held ∧ edit.lookup i ≠ some .dealloc}

theorem mem_hold {held : Set ChunkId} {i : ChunkId} : i ∈ hold held edit ↔
    edit.lookup i = some .alloc ∨ i ∈ held ∧ edit.lookup i ≠ some .dealloc := .rfl

theorem mem_hold_of_none {held : Set ChunkId} {i : ChunkId} (none : edit.lookup i = none) :
    i ∈ hold held edit ↔ i ∈ held := by
  rw [mem_hold, none]
  exact ⟨fun h => h.elim nofun And.left, fun h => .inr ⟨h, nofun⟩⟩

/-- The chunks held by the committed transactions. -/
def held (committed : List ChunkAllocEdit) : Set ChunkId := committed.foldl hold ∅

theorem held_snoc (committed : List ChunkAllocEdit) (edit : ChunkAllocEdit) :
    held (committed ++ [edit]) = hold (held committed) edit := by
  unfold held
  rw [foldl_append]
  rfl

/-- A transaction gives back a chunk it has allocated itself, or one that committed transactions
hold and that no ongoing transaction has given back. -/
def MayDealloc (s : ChunkSystem) (tid : Tid) (i : ChunkId) : Prop :=
  (∃ edit, s.ongoing.lookup tid = some edit ∧ edit.lookup i = some .alloc) ∨
    i ∈ held s.committed ∧ ∀ tid' edit, s.ongoing.lookup tid' = some edit → edit.lookup i = none

/-- Deallocating a free chunk is an error of the caller. -/
def Contract (s : ChunkSystem) : ChunkOp → Prop
  | .dealloc tid i => s.MayDealloc tid i
  | .deallocBatch tid ids => ids.Nodup ∧ ∀ i ∈ ids, s.MayDealloc tid i
  | _ => True

def Step (s : ChunkSystem) (op : ChunkOp) (t : ChunkSystem) : Prop := s.Contract op ∧ s.exec op = .ok t

/-- The running bitmap marks the chunks held by committed transactions and those allocated by the
ongoing ones; no two of these are responsible for the same chunk. -/
structure Inv (capacity : Nat) (s : ChunkSystem) : Prop where
  wf : s.state.Wf
  volatile : s.state.inJournal = false
  capacity_eq : s.state.capacity = capacity
  bit : ∀ i, s.state.allocMap[i]? = some true ↔ i ∈ held s.committed ∨
    ∃ tid edit, s.ongoing.lookup tid = some edit ∧ edit.lookup i = some .alloc
  fresh : ∀ {tid edit i}, s.ongoing.lookup tid = some edit → edit.lookup i = some .alloc →
    i ∉ held s.committed
  given : ∀ {tid edit i}, s.ongoing.lookup tid = some edit → edit.lookup i = some .dealloc →
    i ∈ held s.committed
  owner : ∀ {tid tid' edit edit' i}, s.ongoing.lookup tid = some edit →
    s.ongoing.lookup tid' = some edit' → edit.lookup i ≠ none → edit'.lookup i ≠ none → tid = tid'

theorem current_ok : s.current tid = .ok edit ↔ s.ongoing.lookup tid = some edit := by
  unfold current
  cases s.ongoing.lookup tid with
  | none => exact ⟨(nomatch ·), (nomatch ·)⟩
  | some found => exact ⟨fun h => congrArg some (Except.ok.inj h), fun h => congrArg _ (some.inj h)⟩

theorem snd_ok {α β : Type} {x : Res (α × β)} {b : β} : Prod.snd <$> x = .ok b ↔ ∃ a, x = .ok (a, b) := by
  rcases x with _ | ⟨a, b⟩ <;> simp

theorem lookup_update {tid' : Tid} {state : ChunkAllocState} : (s.update tid state edit).ongoing.lookup tid' =
      if tid' = tid then some edit else s.ongoing.lookup tid' := lookup_insert_ite

theorem lookup_of_isEmpty (empty : edit.entries.isEmpty = true) (i : ChunkId) : edit.lookup i = none := by
  cases e : edit.lookup i with
  | none => rfl
  | some kind =>
    have := mem_lookup_iff.mp e
    rw [isEmpty_iff.mp empty] at this
    cases this

theorem commit_ok (found : s.ongoing.lookup tid = some edit) (run : s.commit tid = .ok t) :
    t.ongoing = s.ongoing.erase tid ∧ held t.committed = hold (held s.committed) edit := by
  obtain ⟨edit', cur, run⟩ := bind_ok.mp run
  cases found.symm.trans (current_ok.mp cur)
  split at run
  · next empty =>
    cases run
    exact ⟨rfl, Set.ext fun i => (mem_hold_of_none (lookup_of_isEmpty empty i)).symm⟩
  · obtain ⟨state', -, eq⟩ := bind_ok.mp run
    cases eq
    exact ⟨rfl, held_snoc _ _⟩

theorem abort_ok (run : s.abort tid = .ok t) : t.ongoing = s.ongoing.erase tid ∧ t.committed = s.committed := by
  obtain ⟨edit, -, run⟩ := bind_ok.mp run
  obtain ⟨state', -, eq⟩ := bind_ok.mp run
  cases eq
  exact ⟨rfl, rfl⟩

theorem replicate_false {n i : Nat} : (replicate n false)[i]? ≠ some true := by
  rw [getElem?_replicate]
  split <;> simp

namespace Inv

variable {capacity : Nat}

theorem init (capacity : Nat) : Inv capacity (init capacity) where
  wf := ⟨by simp [ChunkSystem.init, new], Nat.zero_le _⟩
  volatile := rfl
  capacity_eq := length_replicate
  bit i := ⟨fun h => absurd h replicate_false, fun h => h.elim False.elim fun ⟨_, _, h, _⟩ => nomatch h⟩
  fresh h := nomatch h
  given h := nomatch h
  owner h := nomatch h

/-- A chunk that is free in the running bitmap is of no concern to anyone. -/
theorem untouched (inv : Inv capacity s) {i : ChunkId} (free : s.state.allocMap[i]? = some false) :
    i ∉ held s.committed ∧ ∀ tid edit, s.ongoing.lookup tid = some edit → edit.lookup i = none := by
  have not_taken : ¬ s.state.allocMap[i]? = some true := by rw [free]; exact nofun
  rw [inv.bit] at not_taken
  refine ⟨fun h => not_taken (.inl h), fun tid edit found => ?_⟩
  rcases e : edit.lookup i with _ | _ | _
  · rfl
  · exact absurd (.inr ⟨tid, edit, found, e⟩) not_taken
  · exact absurd (.inl (inv.given found e)) not_taken

/-- The ways in which an operation of `tid` may change the edit and the bit of a chunk. -/
inductive Change (s : ChunkSystem) (tid : Tid) (edit edit' : ChunkAllocEdit)
    (state' : ChunkAllocState) (i : ChunkId) : Prop
  | same (edit_eq : edit'.lookup i = edit.lookup i)
      (bit_eq : state'.allocMap[i]? = s.state.allocMap[i]?)
  | own (others : ∀ tid' e, tid' ≠ tid → s.ongoing.lookup tid' = some e → e.lookup i = none)
      (bit : state'.allocMap[i]? = some true ↔ i ∈ held s.committed ∨ edit'.lookup i = some .alloc)
      (fresh : edit'.lookup i = some .alloc → i ∉ held s.committed)
      (given : edit'.lookup i = some .dealloc → i ∈ held s.committed)

section

variable (inv : Inv capacity s)

include inv

theorem update (found : s.ongoing.lookup tid = some edit) (wf : state'.Wf)
    (capacity_eq : state'.capacity = s.state.capacity) (inJournal_eq : state'.inJournal = s.state.inJournal)
    (change : ∀ i, Change s tid edit edit' state' i) : Inv capacity (s.update tid state' edit') where
  wf := wf
  volatile := inJournal_eq.trans inv.volatile
  capacity_eq := capacity_eq.trans inv.capacity_eq
  bit i := by
    show state'.allocMap[i]? = some true ↔ i ∈ held s.committed ∨ _
    have ongoing : (∃ tid' e,
      (s.update tid state' edit').ongoing.lookup tid' = some e ∧ e.lookup i = some .alloc) ↔
        edit'.lookup i = some .alloc ∨
          ∃ tid' e, tid' ≠ tid ∧ s.ongoing.lookup tid' = some e ∧ e.lookup i = some .alloc := by
      constructor
      · rintro ⟨tid', e, h, own⟩
        rw [lookup_update] at h
        split at h
        · cases h
          exact .inl own
        · next other => exact .inr ⟨tid', e, other, h, own⟩
      · rintro (own | ⟨tid', e, other, h, own⟩)
        · exact ⟨tid, edit', lookup_update.trans (if_pos rfl), own⟩
        · exact ⟨tid', e, lookup_update.trans ((if_neg other).trans h), own⟩
    rw [ongoing]
    cases change i with
    | same edit_eq bit_eq =>
      rw [edit_eq, bit_eq, inv.bit]
      constructor
      · rintro (h | ⟨tid', e, h, own⟩)
        · exact .inl h
        by_cases same : tid' = tid
        · subst same
          cases found.symm.trans h
          exact .inr (.inl own)
        · exact .inr (.inr ⟨tid', e, same, h, own⟩)
      · rintro (h | own | ⟨tid', e, -, h, own⟩)
        · exact .inl h
        · exact .inr ⟨tid, edit, found, own⟩
        · exact .inr ⟨tid', e, h, own⟩
    | own others bit _ _ =>
      rw [bit]
      constructor
      · rintro (h | own)
        · exact .inl h
        · exact .inr (.inl own)
      · rintro (h | own | ⟨tid', e, other, h, own⟩)
        · exact .inl h
        · exact .inr own
        · rw [others tid' e other h] at own
          cases own
  fresh := by
    intro tid' e i h own
    rw [lookup_update] at h
    split at h
    · cases h
      cases change i with
      | same edit_eq _ => exact inv.fresh found (edit_eq ▸ own)
      | own _ _ fresh _ => exact fresh own
    · exact inv.fresh h own
  given := by
    intro tid' e i h own
    rw [lookup_update] at h
    split at h
    · cases h
      cases change i with
      | same edit_eq _ => exact inv.given found (edit_eq ▸ own)
      | own _ _ _ given => exact given own
    · exact inv.given h own
  owner := by
    -- a third party has the chunk only where the edit of `tid` did not change
    have third : ∀ {tid' e i}, tid' ≠ tid → s.ongoing.lookup tid' = some e → e.lookup i ≠ none →
        edit'.lookup i ≠ none → tid' = tid := by
      intro tid' e i other h theirs mine
      cases change i with
      | same edit_eq _ => exact inv.owner h found theirs (edit_eq ▸ mine)
      | own others _ _ _ => exact absurd (others tid' e other h) theirs
    intro t1 t2 e1 e2 i h1 h2 own1 own2
    rw [lookup_update] at h1 h2
    split at h1 <;> split at h2
    · next a b => exact a.trans b.symm
    · next a b =>
      cases h1
      exact a.trans (third b h2 own2 own1).symm
    · next a b =>
      cases h2
      exact (third a h1 own1 own2).trans b.symm
    · exact inv.owner h1 h2 own1 own2

/-- Chunks that were free are taken and recorded. -/
theorem took (found : s.ongoing.lookup tid = some edit) (free : ∀ i ∈ ids, s.state.allocMap[i]? = some false)
    (flipped : s.state.Flipped true ids state') (recorded : edit.Recorded ids edit') :
    Inv capacity (s.update tid state' edit') := by
  refine inv.update found flipped.wf flipped.capacity_eq flipped.inJournal_eq fun i => ?_
  by_cases mem : i ∈ ids
  · obtain ⟨not_held, nobody⟩ := inv.untouched (free i mem)
    have alloc : edit'.lookup i = some .alloc := (recorded i).trans (if_pos mem)
    refine .own (fun tid' e _ h => nobody tid' e h) ?_ (fun _ => not_held) ?_
    · rw [flipped.bit, if_pos mem]
      exact ⟨fun _ => .inr alloc, fun _ => rfl⟩
    · rw [alloc]
      exact nofun
  · exact .same ((recorded i).trans (if_neg mem)) ((flipped.bit i).trans (if_neg mem))

theorem newTx (tid : Tid) : Inv capacity (s.newTx tid) := by
  unfold ChunkSystem.newTx
  split
  · exact inv
  · next absent =>
    have absent : s.ongoing.lookup tid = none := by simpa using absent
    -- the new edit has no entry, so every entry is of an older transaction
    have older : ∀ {tid' e i}, (s.ongoing.insert tid ∅).lookup tid' = some e → e.lookup i ≠ none →
        s.ongoing.lookup tid' = some e := by
      intro tid' e i h own
      rw [lookup_insert_ite] at h
      split at h
      · cases h
        exact absurd rfl own
      · exact h
    have keep : ∀ {tid' e}, s.ongoing.lookup tid' = some e → (s.ongoing.insert tid ∅).lookup tid' = some e := by
      intro tid' e h
      rw [lookup_insert_ite, if_neg fun same => by rw [same, absent] at h; cases h]
      exact h
    have entry {e : ChunkAllocEdit} {i : ChunkId} {k : ChunkEdit} (h : e.lookup i = some k) :
        e.lookup i ≠ none := by rw [h]; exact nofun
    exact
      { wf := inv.wf
        volatile := inv.volatile
        capacity_eq := inv.capacity_eq
        bit := fun i => (inv.bit i).trans (or_congr_right
          ⟨fun ⟨tid', e, h, own⟩ => ⟨tid', e, keep h, own⟩,
            fun ⟨tid', e, h, own⟩ => ⟨tid', e, older h (entry own), own⟩⟩)
        fresh := fun h own => inv.fresh (older h (entry own)) own
        given := fun h own => inv.given (older h (entry own)) own
        owner := fun h h' own own' => inv.owner (older h own) (older h' own') own own' }

theorem alloc {p : ChunkId} (run : s.alloc tid = .ok (p, t)) : Inv capacity t := by
  obtain ⟨edit, cur, run⟩ := bind_ok.mp run
  obtain ⟨⟨q, state', edit'⟩, act, eq⟩ := bind_ok.mp run
  obtain ⟨⟨r, mid⟩, search, act⟩ := bind_ok.mp act
  obtain ⟨record, note, eq'⟩ := bind_ok.mp act
  cases eq
  cases eq'
  have found := current_ok.mp cur
  obtain ⟨free, rfl⟩ := alloc_ok inv.wf search
  obtain ⟨edit'', note', recorded⟩ := alloc_run ((inv.untouched free).2 tid edit found)
  cases note.symm.trans note'
  refine inv.took found (fun i mem => ?_) (ChunkAllocState.Flipped.take inv.wf free) recorded
  exact mem_singleton.mp mem ▸ free

/-- With enough free chunks a batch is allocated: as many chunks as asked for that nobody had. -/
theorem allocBatch_run {count : Nat} (found : s.ongoing.lookup tid = some edit)
    (room : count ≤ s.state.freeFrom.length) : ∃ ids t, s.allocBatch tid count = .ok (ids, t) ∧
      Inv capacity t ∧ ids.length = count ∧ ids.Nodup ∧
      (∀ i ∈ ids, s.state.allocMap[i]? = some false) ∧
      ∃ edit edit' state', s.ongoing.lookup tid = some edit ∧ edit.Recorded ids edit' ∧
        s.state.Flipped true ids state' ∧ t = s.update tid state' edit' := by
  obtain ⟨state', search, flipped⟩ := allocMany_run inv.wf room
  have perm := perm_insertionSort (· ≤ ·) (s.state.freeFrom.take count)
  generalize sorted : (s.state.freeFrom.take count).insertionSort (· ≤ ·) = ids at perm
  have free : ∀ i ∈ ids, s.state.allocMap[i]? = some false :=
    fun i mem => mem_freeFrom.mp (mem_of_mem_take (perm.mem_iff.mp mem))
  have nodup : ids.Nodup := perm.nodup_iff.mpr (s.state.nodup_freeFrom.sublist (take_sublist _ _))
  obtain ⟨edit', note, recorded⟩ := allocAll_run nodup fun i mem =>
    (inv.untouched (free i mem)).2 tid edit found
  have flipped' : s.state.Flipped true ids state' :=
    { flipped with bit := fun i => by rw [flipped.bit]; simp only [perm.mem_iff] }
  refine ⟨ids, s.update tid state' edit', ?_, inv.took found free flipped' recorded, ?_, nodup, free,
    edit, edit', state', found, recorded, flipped', rfl⟩
  · unfold ChunkSystem.allocBatch ChunkAlloc.allocBatch
    rw [current_ok.mpr found, ok_bind, search, ok_bind]
    dsimp only
    rw [sorted, note]
    rfl
  · rw [perm.length_eq, length_take, min_eq_left room]

theorem allocBatch {count : Nat} (run : s.allocBatch tid count = .ok (ids, t)) :
    count ≤ s.state.freeFrom.length ∧ Inv capacity t ∧ ids.length = count ∧ ids.Nodup ∧
      (∀ i ∈ ids, s.state.allocMap[i]? = some false) ∧
      ∃ edit edit' state', s.ongoing.lookup tid = some edit ∧ edit.Recorded ids edit' ∧
        s.state.Flipped true ids state' ∧ t = s.update tid state' edit' := by
  obtain ⟨edit, cur, act⟩ := bind_ok.mp run
  obtain ⟨_, act, -⟩ := bind_ok.mp act
  obtain ⟨_, search, -⟩ := bind_ok.mp act
  have room := allocMany_room inv.wf search
  obtain ⟨ids', t', run', done⟩ := inv.allocBatch_run (current_ok.mp cur) room
  cases run.symm.trans run'
  exact ⟨room, done⟩

end

/-- The edit and the bitmap after the chunks `ids` were given back: those the transaction had
allocated are free again, the others are noted for the commit. -/
structure GaveBack (s : ChunkSystem) (edit : ChunkAllocEdit) (ids : List ChunkId)
    (state' : ChunkAllocState) (edit' : ChunkAllocEdit) : Prop where
  entry : ∀ i, edit'.lookup i =
    if i ∈ ids then (if edit.lookup i = some .alloc then none else some .dealloc) else edit.lookup i
  bit : ∀ i, state'.allocMap[i]? =
    if i ∈ ids ∧ edit.lookup i = some .alloc then some false else s.state.allocMap[i]?

theorem dealloc_run (inv : Inv capacity s) {i : ChunkId} (found : s.ongoing.lookup tid = some edit)
    (may : s.MayDealloc tid i) : ∃ state' edit', dealloc (s.state, edit) i = .ok (state', edit') ∧
      Inv capacity (s.update tid state' edit') ∧ GaveBack s edit [i] state' edit' := by
  rcases may with ⟨edit2, found2, own⟩ | ⟨isHeld, nobody⟩
  · cases found.symm.trans found2
    have taken : s.state.allocMap[i]? = some true := (inv.bit i).mpr (.inr ⟨tid, edit, found, own⟩)
    obtain ⟨state', release, flipped⟩ := ChunkAllocState.dealloc_run inv.wf taken
    have run : dealloc (s.state, edit) i = .ok (state', edit.erase i) := by
      unfold ChunkAlloc.dealloc ChunkAllocEdit.dealloc
      simp only [own]
      rw [show (pure (true, edit.erase i)) = .ok (true, edit.erase i) from rfl, ok_bind]
      rw [release]
      rfl
    refine ⟨state', edit.erase i, run, ?_, fun j => ?_, fun j => ?_⟩
    · refine inv.update found flipped.wf flipped.capacity_eq flipped.inJournal_eq fun j => ?_
      by_cases same : j = i
      · subst same
        have gone : (edit.erase j).lookup j = none := lookup_erase _ _
        refine .own (fun tid' e other h => ?_) ?_ (fun h => nomatch gone.symm.trans h)
          (fun h => nomatch gone.symm.trans h)
        · by_contra theirs
          exact other (inv.owner h found theirs (by rw [own]; exact nofun))
        · rw [flipped.bit, if_pos mem_cons_self, gone]
          exact ⟨nofun, fun h => h.elim (fun h => absurd h (inv.fresh found own)) nofun⟩
      · exact .same (lookup_erase_ne same) ((flipped.bit j).trans (if_neg fun h => same (mem_singleton.mp h)))
    · rw [lookup_erase_ite]
      simp only [mem_singleton]
      split
      · next same => rw [same, if_pos own]
      · rfl
    · rw [flipped.bit]
      simp only [mem_singleton]
      refine if_congr ⟨fun same => ⟨same, same ▸ own⟩, And.left⟩ rfl rfl
  · have none := nobody tid edit found
    have run : dealloc (s.state, edit) i = .ok (s.state, edit.insert i .dealloc) := by
      unfold ChunkAlloc.dealloc ChunkAllocEdit.dealloc
      simp only [none]
      rfl
    refine ⟨s.state, edit.insert i .dealloc, run, ?_, fun j => ?_, fun j => ?_⟩
    · refine inv.update found inv.wf rfl rfl fun j => ?_
      by_cases same : j = i
      · subst same
        refine .own (fun tid' e _ h => nobody tid' e h) ?_ ?_ (fun _ => isHeld)
        · rw [inv.bit]
          exact ⟨fun _ => .inl isHeld, fun _ => .inl isHeld⟩
        · rw [lookup_insert]
          exact nofun
      · exact .same (lookup_insert_ne same) rfl
    · rw [lookup_insert_ite]
      simp only [mem_singleton]
      split
      · next same => rw [same, none, if_neg nofun]
      · rfl
    · rw [if_neg]
      rintro ⟨mem, own⟩
      rw [mem_singleton.mp mem, none] at own
      cases own

theorem update_update {state : ChunkAllocState} :
    (s.update tid state edit).update tid state' edit' = s.update tid state' edit' := by
  unfold ChunkSystem.update
  simp only [insert_insert]

theorem deallocBatch_run (inv : Inv capacity s) (found : s.ongoing.lookup tid = some edit) (nodup : ids.Nodup)
    (may : ∀ i ∈ ids, s.MayDealloc tid i) :
    ∃ state' edit', s.deallocBatch tid ids = .ok (s.update tid state' edit') ∧
      Inv capacity (s.update tid state' edit') ∧ GaveBack s edit ids state' edit' := by
  suffices batch : ∃ state' edit', ids.foldlM ChunkAlloc.dealloc (s.state, edit) = .ok (state', edit') ∧
      Inv capacity (s.update tid state' edit') ∧ GaveBack s edit ids state' edit' by
    obtain ⟨state', edit', run, inv', gave⟩ := batch
    refine ⟨state', edit', ?_, inv', gave⟩
    unfold ChunkSystem.deallocBatch ChunkAlloc.deallocBatch
    rw [current_ok.mpr found, ok_bind, run]
    rfl
  induction ids generalizing s edit with
  | nil =>
    refine ⟨s.state, edit, rfl, ?_, fun i => ?_, fun i => ?_⟩
    · exact inv.update found inv.wf rfl rfl fun i => .same rfl rfl
    · exact (if_neg not_mem_nil).symm
    · exact (if_neg fun h => not_mem_nil h.1).symm
  | cons p ids ih =>
    obtain ⟨absent, nodup⟩ := nodup_cons.mp nodup
    obtain ⟨mid, mid', run, inv', gave⟩ := inv.dealloc_run found (may p mem_cons_self)
    have entry {i : ChunkId} (mem : i ∈ ids) : mid'.lookup i = edit.lookup i := by
      have other : i ∉ [p] := fun h => absent (mem_singleton.mp h ▸ mem)
      exact (gave.entry i).trans (if_neg other)
    have found' : (s.update tid mid mid').ongoing.lookup tid = some mid' := lookup_update.trans (if_pos rfl)
    have may' : ∀ i ∈ ids, (s.update tid mid mid').MayDealloc tid i := by
      intro i mem
      rcases may i (mem_cons_of_mem _ mem) with ⟨e, h, own⟩ | ⟨isHeld, nobody⟩
      · cases found.symm.trans h
        exact .inl ⟨mid', found', (entry mem).trans own⟩
      refine .inr ⟨isHeld, fun tid' e h => ?_⟩
      rw [lookup_update] at h
      split at h
      · cases h
        exact (entry mem).trans (nobody tid edit found)
      · exact nobody tid' e h
    obtain ⟨state', edit', run', inv'', gave'⟩ := ih inv' found' nodup may'
    rw [update_update] at inv''
    refine ⟨state', edit', ?_, inv'', fun i => ?_, fun i => ?_⟩
    · rw [foldlM_cons, run]
      exact run'
    · rw [gave'.entry, gave.entry]
      by_cases first : i = p
      · subst first
        simp [absent]
      · simp [first]
    · rw [gave'.bit, gave.entry]
      show (if _ then some false else mid.allocMap[i]?) = _
      rw [gave.bit]
      by_cases first : i = p
      · subst first
        simp [absent]
      · simp [first]

/-- The entries of the transactions that go on when `tid` ends. -/
theorem lookup_erase_some {tid' : Tid} {e : ChunkAllocEdit} :
    (s.ongoing.erase tid).lookup tid' = some e ↔ tid' ≠ tid ∧ s.ongoing.lookup tid' = some e := by
  rw [lookup_erase_ite]
  split
  · next same => exact ⟨nofun, fun h => absurd same h.1⟩
  · next other => exact ⟨fun h => ⟨other, h⟩, And.right⟩

section

variable (inv : Inv capacity s)

include inv

/-- The transactions that go on have no entry in common with the one that ends. -/
theorem apart (found : s.ongoing.lookup tid = some edit) {tid' : Tid} {e : ChunkAllocEdit}
    {i : ChunkId} (h : (s.ongoing.erase tid).lookup tid' = some e) (theirs : e.lookup i ≠ none) :
    edit.lookup i = none := by
  obtain ⟨other, h⟩ := lookup_erase_some.mp h
  by_contra mine
  exact other (inv.owner h found theirs mine)

/-- A transaction ends: its entries leave the table, and the running bitmap and the chunks held are
adjusted for them. -/
theorem finish {committed' : List ChunkAllocEdit} (found : s.ongoing.lookup tid = some edit)
    (flipped : s.state.Flipped false ids state')
    (elsewhere : ∀ i, edit.lookup i = none → i ∉ ids ∧ (i ∈ held committed' ↔ i ∈ held s.committed))
    (here : ∀ i, edit.lookup i ≠ none → (i ∈ held committed' ↔ i ∉ ids)) :
    Inv capacity { state := state', ongoing := s.ongoing.erase tid, committed := committed' } where
  wf := flipped.wf
  volatile := flipped.inJournal_eq.trans inv.volatile
  capacity_eq := flipped.capacity_eq.trans inv.capacity_eq
  bit i := by
    rw [flipped.bit]
    by_cases touched : edit.lookup i = none
    · obtain ⟨notin, held_iff⟩ := elsewhere i touched
      rw [if_neg notin, inv.bit, held_iff]
      refine or_congr_right ⟨?_, ?_⟩
      · rintro ⟨tid', e, h, own⟩
        refine ⟨tid', e, lookup_erase_some.mpr ⟨fun same => ?_, h⟩, own⟩
        subst same
        cases found.symm.trans h
        rw [touched] at own
        cases own
      · rintro ⟨tid', e, h, own⟩
        exact ⟨tid', e, (lookup_erase_some.mp h).2, own⟩
    · -- the ending transaction was the only one with an entry for `i`
      have nobody : ¬ ∃ tid' e, (s.ongoing.erase tid).lookup tid' = some e ∧ e.lookup i = some .alloc := by
        rintro ⟨tid', e, h, own⟩
        exact touched (inv.apart found h (by rw [own]; exact nofun))
      have taken : s.state.allocMap[i]? = some true := by
        rw [inv.bit]
        rcases e : edit.lookup i with _ | _ | _
        · exact absurd e touched
        · exact .inr ⟨tid, edit, found, e⟩
        · exact .inl (inv.given found e)
      rw [here i touched, taken]
      by_cases mem : i ∈ ids
      · rw [if_pos mem]
        exact ⟨nofun, fun h => h.elim (absurd mem) fun h => absurd h nobody⟩
      · rw [if_neg mem]
        exact ⟨fun _ => .inl mem, fun _ => rfl⟩
  fresh h own isHeld := inv.fresh (lookup_erase_some.mp h).2 own
    ((elsewhere _ (inv.apart found h (by rw [own]; exact nofun))).2.mp isHeld)
  given h own := (elsewhere _ (inv.apart found h (by rw [own]; exact nofun))).2.mpr
    (inv.given (lookup_erase_some.mp h).2 own)
  owner h h' own own' := inv.owner (lookup_erase_some.mp h).2 (lookup_erase_some.mp h').2 own own'

theorem abort (run : s.abort tid = .ok t) : Inv capacity t := by
  obtain ⟨edit, cur, run⟩ := bind_ok.mp run
  obtain ⟨state', undo, eq⟩ := bind_ok.mp run
  cases eq
  have found := current_ok.mp cur
  obtain ⟨state'', undo', flipped⟩ := deallocAll_run inv.wf edit.nodup_allocated
    fun i mem => (inv.bit i).mpr (.inr ⟨tid, edit, found, mem_allocated.mp mem⟩)
  cases undo.symm.trans undo'
  refine inv.finish found flipped (fun i none => ⟨fun mem => ?_, Iff.rfl⟩) fun i touched => ?_
  · rw [mem_allocated, none] at mem
    cases mem
  rw [mem_allocated]
  rcases e : edit.lookup i with _ | _ | _
  · exact absurd e touched
  · exact ⟨fun h => absurd h (inv.fresh found e), fun h => absurd rfl h⟩
  · exact ⟨fun _ => nofun, fun _ => inv.given found e⟩

theorem commit (run : s.commit tid = .ok t) : Inv capacity t := by
  obtain ⟨edit, cur, run⟩ := bind_ok.mp run
  have found := current_ok.mp cur
  split at run
  · next empty =>
    cases run
    have none := lookup_of_isEmpty empty
    refine inv.finish found (.refl inv.wf) (fun i _ => ⟨not_mem_nil, Iff.rfl⟩) fun i touched => ?_
    exact absurd (none i) touched
  obtain ⟨state', apply, eq⟩ := bind_ok.mp run
  cases eq
  obtain ⟨state'', apply', flipped⟩ := applyTo_volatile inv.volatile inv.wf
    fun i gave => (inv.bit i).mpr (.inl (inv.given found gave))
  cases apply.symm.trans apply'
  refine inv.finish found flipped (fun i none => ⟨fun mem => ?_, ?_⟩) fun i touched => ?_
  · rw [mem_deallocated, none] at mem
    cases mem
  · rw [held_snoc, mem_hold_of_none none]
  · rw [held_snoc, mem_deallocated, mem_hold]
    rcases e : edit.lookup i with _ | _ | _
    · exact absurd e touched
    · exact ⟨fun _ => nofun, fun _ => .inl rfl⟩
    · exact ⟨fun h => h.elim nofun And.right, fun h => absurd rfl h⟩

theorem step {op : ChunkOp} (h : s.Step op t) : Inv capacity t := by
  obtain ⟨contract, run⟩ := h
  have batch {tid : Tid} {ids : List ChunkId} (nodup : ids.Nodup)
      (may : ∀ i ∈ ids, s.MayDealloc tid i) (run : s.deallocBatch tid ids = .ok t) :
      Inv capacity t := by
    obtain ⟨edit, cur, -⟩ := bind_ok.mp run
    obtain ⟨state', edit', run', inv', -⟩ := inv.deallocBatch_run (current_ok.mp cur) nodup may
    cases run.symm.trans run'
    exact inv'
  cases op with
  | newTx tid =>
    cases run
    exact inv.newTx tid
  | alloc tid =>
    obtain ⟨p, taken⟩ := snd_ok.mp run
    exact inv.alloc taken
  | allocBatch tid count =>
    obtain ⟨ids, taken⟩ := snd_ok.mp run
    exact (inv.allocBatch taken).2.1
  | dealloc tid i =>
    exact batch (nodup_singleton i) (fun j mem => mem_singleton.mp mem ▸ contract) run
  | deallocBatch tid ids => exact batch contract.1 contract.2 run
  | commit tid => exact inv.commit run
  | abort tid => exact inv.abort run

end

end Inv

/-- In every interleaving, a chunk is marked exactly if the committed transactions hold it or an
ongoing one has allocated it, and no two ongoing transactions touch one chunk. Each can be
committed, or aborted, which frees what it has allocated and nothing else. -/
theorem run_isolated {capacity : Nat} (s : Labelled.Reachable Step (init capacity)) :
    (∀ i, s.1.state.allocMap[i]? = some true ↔ i ∈ held s.1.committed ∨
      ∃ tid edit, s.1.ongoing.lookup tid = some edit ∧ edit.lookup i = some .alloc) ∧
    ∀ tid edit, s.1.ongoing.lookup tid = some edit →
      (∀ tid' edit' i, s.1.ongoing.lookup tid' = some edit' → edit.lookup i ≠ none →
        edit'.lookup i ≠ none → tid = tid') ∧
      (∃ t, s.1.commit tid = .ok t ∧ held t.committed = hold (held s.1.committed) edit) ∧
      ∃ t, s.1.abort tid = .ok t ∧ ∀ i, t.state.allocMap[i]? =
        if edit.lookup i = some .alloc then some false else s.1.state.allocMap[i]? := by
  obtain ⟨s, _, run⟩ := s
  have inv : Inv capacity s := run.invariant (fun _ _ _ inv step => inv.step step) (.init capacity)
  refine ⟨inv.bit, fun tid edit found => ⟨fun _ _ _ => inv.owner found, ?_, ?_⟩⟩
  · obtain ⟨state', apply, -⟩ := applyTo_volatile inv.volatile inv.wf
      fun i gave => (inv.bit i).mpr (.inl (inv.given found gave))
    have returns : ∃ t, s.commit tid = .ok t := by
      rw [commit, current_ok.mpr found, ok_bind, apply]
      split <;> exact ⟨_, rfl⟩
    obtain ⟨t, run⟩ := returns
    exact ⟨t, run, (commit_ok found run).2⟩
  · obtain ⟨state', undo, flipped⟩ := deallocAll_run inv.wf edit.nodup_allocated
      fun i mem => (inv.bit i).mpr (.inr ⟨tid, edit, found, mem_allocated.mp mem⟩)
    refine ⟨{ s with state := state', ongoing := s.ongoing.erase tid }, ?_, fun i => ?_⟩
    · rw [abort, current_ok.mpr found, ok_bind, ChunkAlloc.onAbort, undo]
      rfl
    · simp only [flipped.bit, mem_allocated]

/-- Of two interleaved transactions the first has committed; an abort of the second one frees its two chunks. -/
theorem run_isolated_twoTxs : ∃ s t, Labelled.Run Step (init 4)
      [.newTx 0, .newTx 1, .allocBatch 0 2, .allocBatch 1 2, .commit 0] s ∧ s.abort 1 = .ok t ∧
    (s.state.allocMap[1]?, s.state.allocMap[3]?) = (some true, some true) ∧
    (t.state.allocMap[1]?, t.state.allocMap[3]?) = (some true, some false) := by
  have run : Labelled.Run Step (init 4) [.newTx 0, .newTx 1, .allocBatch 0 2, .allocBatch 1 2, .commit 0] _ :=
    .cons ⟨trivial, rfl⟩ <| .cons ⟨trivial, rfl⟩ <| .cons ⟨trivial, rfl⟩ <| .cons ⟨trivial, rfl⟩ <|
      .single ⟨trivial, rfl⟩
  obtain ⟨t, aborts, bits⟩ := ((run_isolated ⟨_, _, run⟩).2 1 _ rfl).2.2
  exact ⟨_, t, run, aborts, rfl, Prod.ext (bits 1) (bits 3)⟩

/-- The counter counts the clear bits. An allocation returns exactly when enough chunks are free, and
then hands out distinct ones of them; otherwise its search ends in a panic, never in a `None`. -/
theorem alloc_iff_room {capacity : Nat} {ops : List ChunkOp} (run : Labelled.Run Step (init capacity) ops s) :
    s.state.freeCount = s.state.allocMap.count false ∧
    ((∃ r, s.state.alloc = .ok r) ↔ 0 < s.state.freeCount) ∧
    (∀ r, s.state.alloc = .ok r → s.state.allocMap[r.1]? = some false) ∧
    ∀ tid edit, s.ongoing.lookup tid = some edit → ∀ count,
      ((∃ r, s.allocBatch tid count = .ok r) ↔ count ≤ s.state.freeCount) ∧
      ∀ ids t, s.allocBatch tid count = .ok (ids, t) → ids.length = count ∧ ids.Nodup ∧
        ∀ i ∈ ids, s.state.allocMap[i]? = some false := by
  have inv : Inv capacity s := run.invariant (fun _ _ _ inv h => inv.step h) (.init capacity)
  have counted := inv.wf.freeCount_eq
  refine ⟨counted, ?_, fun r h => (alloc_ok inv.wf h).1, fun tid edit found count => ⟨?_, ?_⟩⟩
  · rw [counted, ← length_freeFrom]
    cases order : s.state.freeFrom with
    | nil =>
      obtain ⟨fault, e⟩ := alloc_full order
      simp [e]
    | cons p rest => simp [alloc_run inv.wf order]
  · rw [counted, ← length_freeFrom]
    exact ⟨fun ⟨_, h⟩ => (inv.allocBatch h).1,
      fun room => have ⟨_, _, h, _⟩ := inv.allocBatch_run found room; ⟨_, h⟩⟩
  · intro ids t h
    obtain ⟨-, -, length, nodup, free, -⟩ := inv.allocBatch h
    exact ⟨length, nodup, free⟩

theorem alloc_iff_room_oneTx : ∃ s, Labelled.Run Step (init 2) [.newTx 0, .alloc 0] s ∧
    s.state.freeCount = 1 ∧ ((∃ r, s.allocBatch 0 2 = .ok r) ↔ 2 ≤ s.state.freeCount) := by
  have run : Labelled.Run Step (init 2) [.newTx 0, .alloc 0] _ :=
    .cons ⟨trivial, rfl⟩ (.cons ⟨trivial, rfl⟩ (.nil _))
  exact ⟨_, run, rfl, ((alloc_iff_room run).2.2.2 0 _ rfl 2).1⟩

/-- With one chunk left, a batch of two does not return `None`. -/
theorem allocBatch_panics : ∃ s, Labelled.Run Step (init 2) [.newTx 0, .alloc 0] s ∧
    s.allocBatch 0 2 = panicWith "there must exists a zero" :=
  ⟨_, .cons ⟨trivial, rfl⟩ (.cons ⟨trivial, rfl⟩ (.nil _)), rfl⟩

/-! ## The journal -/

/-- Replaying the committed edits gives the chunks they hold, which is the running bitmap whenever
no transaction is ongoing. -/
def JournalAgrees (capacity : Nat) (s : ChunkSystem) : Prop :=
  ∃ journal, replay capacity s.committed = .ok journal ∧
    (∀ i, journal.allocMap[i]? = some true ↔ i ∈ held s.committed) ∧
    (s.ongoing = ∅ → journal.allocMap = s.state.allocMap)

/-- A transaction that commits has taken the chunks that the journal's search comes to next. -/
def InJournalOrder (capacity : Nat) (s : ChunkSystem) : ChunkOp → Prop
  | .commit tid => ∀ edit journal, s.ongoing.lookup tid = some edit →
      replay capacity s.committed = .ok journal →
      edit.iterAllocatedChunks.Perm (journal.freeFrom.take edit.iterAllocatedChunks.length)
  | _ => True

def OrderedStep (capacity : Nat) (s : ChunkSystem) (op : ChunkOp) (t : ChunkSystem) : Prop :=
  s.InJournalOrder capacity op ∧ s.Step op t

structure Journaled (capacity : Nat) (s : ChunkSystem) (journal : ChunkAllocState) : Prop where
  replayed : replay capacity s.committed = .ok journal
  wf : journal.Wf
  inJournal : journal.inJournal = true
  capacity_eq : journal.capacity = capacity
  bit : ∀ i, journal.allocMap[i]? = some true ↔ i ∈ held s.committed

namespace Journaled

variable {capacity : Nat} {journal : ChunkAllocState}

theorem init (capacity : Nat) : Journaled capacity (init capacity) (.newInJournal capacity) where
  replayed := rfl
  wf := ⟨by simp [newInJournal], Nat.zero_le _⟩
  inJournal := rfl
  capacity_eq := length_replicate
  bit i := ⟨fun h => absurd h replicate_false, False.elim⟩

variable (journaled : Journaled capacity s journal) (inv : Inv capacity s)
include journaled inv

theorem agrees : JournalAgrees capacity s := by
  refine ⟨journal, journaled.replayed, journaled.bit, fun idle => ?_⟩
  have same (i : ChunkId) : journal.allocMap[i]? = some true ↔ s.state.allocMap[i]? = some true := by
    rw [journaled.bit, inv.bit, idle]
    exact ⟨.inl, fun h => h.elim id fun ⟨_, _, h, _⟩ => nomatch h⟩
  have length : journal.allocMap.length = s.state.allocMap.length := journaled.capacity_eq.trans inv.capacity_eq.symm
  refine ext_getElem length fun i inside inside' => Bool.eq_iff_iff.mpr ?_
  have := same i
  rwa [getElem?_eq_getElem inside, getElem?_eq_getElem inside', some.injEq, some.injEq] at this

/-- A chunk that an ongoing transaction has allocated is free in the journal. -/
theorem allocated_free (found : s.ongoing.lookup tid = some edit) {i : ChunkId} (mem : i ∈ edit.iterAllocatedChunks) :
    i ∈ journal.freeFrom := by
  have own := mem_allocated.mp mem
  have taken : s.state.allocMap[i]? = some true := (inv.bit i).mpr (.inr ⟨tid, edit, found, own⟩)
  have inside : i < journal.allocMap.length := by
    have := (List.getElem?_eq_some_iff.mp taken).1
    rwa [show s.state.allocMap.length = _ from inv.capacity_eq.trans journaled.capacity_eq.symm] at this
  have not_held := inv.fresh found own
  rw [← journaled.bit, getElem?_eq_getElem inside, some.injEq] at not_held
  rw [mem_freeFrom, getElem?_eq_getElem inside, Bool.eq_false_of_not_eq_true not_held]

/-- After one more edit the journal marks the chunks held exactly when its search found those of the
edit. -/
theorem commit (found : s.ongoing.lookup tid = some edit) (committed_eq : t.committed = s.committed ++ [edit]) :
    ∃ journal', replay capacity t.committed = .ok journal' ∧ journal'.Wf ∧
      journal'.inJournal = true ∧ journal'.capacity = capacity ∧
      ((∀ i, journal'.allocMap[i]? = some true ↔ i ∈ held t.committed) ↔
        edit.iterAllocatedChunks.Perm (journal.freeFrom.take edit.iterAllocatedChunks.length)) := by
  have room : edit.iterAllocatedChunks.length ≤ journal.freeFrom.length :=
    (subperm_of_subset edit.nodup_allocated fun i mem =>
      journaled.allocated_free inv found mem).length_le
  have taken : ∀ i, edit.lookup i = some .dealloc → journal.allocMap[i]? = some true := fun i gave =>
    (journaled.bit i).mpr (inv.given found gave)
  obtain ⟨mid, journal', apply, took, released⟩ := applyTo_journal journaled.inJournal journaled.wf room taken
  have replayed : replay capacity t.committed = .ok journal' := by
    unfold replay
    rw [committed_eq, foldlM_append]
    rw [show foldlM _ _ s.committed = _ from journaled.replayed, ok_bind, foldlM_cons, apply]
    rfl
  refine ⟨journal', replayed, released.wf, released.inJournal_eq.trans (took.inJournal_eq.trans journaled.inJournal),
    released.capacity_eq.trans (took.capacity_eq.trans journaled.capacity_eq), ?_⟩
  -- the journal marks what was held and what its search found, less what was given back
  generalize picked : journal.freeFrom.take edit.iterAllocatedChunks.length = picks at took ⊢
  have free : ∀ i ∈ picks, i ∉ held s.committed := by
    intro i mem
    have := mem_freeFrom.mp (mem_of_mem_take (picked.symm ▸ mem))
    rw [← journaled.bit, this]
    exact nofun
  have nodup : picks.Nodup := picked ▸ journal.nodup_freeFrom.sublist (take_sublist _ _)
  have marks i : journal'.allocMap[i]? = some true ↔
      edit.lookup i ≠ some .dealloc ∧ (i ∈ picks ∨ i ∈ held s.committed) := by
    rw [released.bit, took.bit, ← journaled.bit]
    simp only [mem_deallocated]
    by_cases gave : edit.lookup i = some .dealloc <;> by_cases mem : i ∈ picks <;> simp [gave, mem]
  constructor
  · intro agree
    refine (perm_ext_iff_of_nodup edit.nodup_allocated nodup).mpr fun i => ?_
    have := agree i
    rw [marks, committed_eq, held_snoc] at this
    rw [mem_allocated]
    constructor
    · intro own
      have := (this.mpr (.inl own)).2
      exact this.elim id fun h => absurd h (inv.fresh found own)
    · intro mem
      have not_given : edit.lookup i ≠ some .dealloc := fun gave => free i mem (inv.given found gave)
      exact (this.mp ⟨not_given, .inl mem⟩).elim id fun h => absurd h.1 (free i mem)
  · intro perm i
    rw [marks, committed_eq, held_snoc, ← perm.mem_iff, mem_allocated]
    constructor
    · rintro ⟨kept, own | isHeld⟩
      · exact .inl own
      · exact .inr ⟨isHeld, kept⟩
    · rintro (own | ⟨isHeld, kept⟩)
      · exact ⟨by rw [own]; exact nofun, .inl own⟩
      · exact ⟨kept, .inr isHeld⟩

end Journaled

/-- Only a commit adds to the journal, and it adds the edit of its transaction. -/
theorem committed_of_exec {op : ChunkOp} (run : s.exec op = .ok t) : t.committed = s.committed ∧
        (∀ tid edit, op = .commit tid → s.ongoing.lookup tid = some edit → edit.entries = []) ∨
      ∃ tid edit, op = .commit tid ∧ s.ongoing.lookup tid = some edit ∧ t.committed = s.committed ++ [edit] := by
  have batch {tid : Tid} {ids : List ChunkId} (run : s.deallocBatch tid ids = .ok t) : t.committed = s.committed := by
    obtain ⟨edit, -, run⟩ := bind_ok.mp run
    obtain ⟨⟨state', edit'⟩, -, eq⟩ := bind_ok.mp run
    cases eq
    rfl
  cases op with
  | newTx tid =>
    cases run
    refine .inl ⟨?_, nofun⟩
    unfold newTx
    split <;> rfl
  | alloc tid =>
    obtain ⟨p, taken⟩ := snd_ok.mp run
    obtain ⟨edit, -, taken⟩ := bind_ok.mp taken
    obtain ⟨_, -, eq⟩ := bind_ok.mp taken
    cases eq
    exact .inl ⟨rfl, nofun⟩
  | allocBatch tid count =>
    obtain ⟨p, taken⟩ := snd_ok.mp run
    obtain ⟨edit, -, taken⟩ := bind_ok.mp taken
    obtain ⟨_, -, eq⟩ := bind_ok.mp taken
    cases eq
    exact .inl ⟨rfl, nofun⟩
  | dealloc tid i => exact .inl ⟨batch run, nofun⟩
  | deallocBatch tid ids => exact .inl ⟨batch run, nofun⟩
  | commit tid =>
    obtain ⟨edit, cur, run⟩ := bind_ok.mp run
    have found := current_ok.mp cur
    split at run
    · next empty =>
      cases run
      refine .inl ⟨rfl, fun tid' edit' same h => ?_⟩
      cases same
      cases found.symm.trans h
      exact isEmpty_iff.mp empty
    · obtain ⟨state', -, eq⟩ := bind_ok.mp run
      cases eq
      exact .inr ⟨tid, edit, rfl, found, rfl⟩
  | abort tid =>
    obtain ⟨edit, -, run⟩ := bind_ok.mp run
    obtain ⟨state', -, eq⟩ := bind_ok.mp run
    cases eq
    exact .inl ⟨rfl, nofun⟩

/-- One operation keeps the journal in agreement exactly when it is in the journal's order. -/
theorem agrees_step_iff {capacity : Nat} {journal : ChunkAllocState} {op : ChunkOp} (inv : Inv capacity s)
    (journaled : Journaled capacity s journal) (h : s.Step op t) :
    (JournalAgrees capacity t ↔ s.InJournalOrder capacity op) ∧
      (s.InJournalOrder capacity op → ∃ journal', Journaled capacity t journal') := by
  have inv' := inv.step h
  rcases committed_of_exec h.2 with ⟨same, empty⟩ | ⟨tid, edit, rfl, found, more⟩
  · have journaled' : Journaled capacity t journal := { journaled with
        replayed := same ▸ journaled.replayed
        bit := same ▸ journaled.bit }
    refine ⟨⟨fun _ => ?_, fun _ => journaled'.agrees inv'⟩, fun _ => ⟨journal, journaled'⟩⟩
    cases op with
    | commit tid =>
      intro edit journal' found _
      have none : edit.iterAllocatedChunks = [] := by
        unfold iterAllocatedChunks keysWith
        rw [empty tid edit rfl found]
        rfl
      rw [none]
      exact .nil
    | _ => trivial
  · obtain ⟨journal', replayed, wf, inJournal, capacity_eq, bits⟩ := journaled.commit inv found more
    have order : s.InJournalOrder capacity (.commit tid) ↔
        edit.iterAllocatedChunks.Perm (journal.freeFrom.take edit.iterAllocatedChunks.length) := by
      constructor
      · exact fun ordered => ordered edit journal found journaled.replayed
      intro perm edit' j h replayed'
      cases found.symm.trans h
      cases journaled.replayed.symm.trans replayed'
      exact perm
    rw [order]
    have next (perm : edit.iterAllocatedChunks.Perm
        (journal.freeFrom.take edit.iterAllocatedChunks.length)) : Journaled capacity t journal' :=
      { replayed, wf, inJournal, capacity_eq, bit := bits.mpr perm }
    refine ⟨⟨fun ⟨j, h, bit, _⟩ => ?_, fun perm => (next perm).agrees inv'⟩,
      fun perm => ⟨journal', next perm⟩⟩
    cases replayed.symm.trans h
    exact bits.mp bit

/-- As long as every transaction commits in the journal's order, replaying the committed edits gives
the chunks they hold; the first commit out of that order ends this. -/
theorem replay_eq_held_iff {capacity : Nat} {ops : List ChunkOp} {s : ChunkSystem}
    (run : Labelled.Run (OrderedStep capacity) (init capacity) ops s) :
    JournalAgrees capacity s ∧ ∀ op t, s.Step op t →
    (JournalAgrees capacity t ↔ s.InJournalOrder capacity op) := by
  have keep : ∀ s op t, (Inv capacity s ∧ ∃ journal, Journaled capacity s journal) →
      OrderedStep capacity s op t → Inv capacity t ∧ ∃ journal, Journaled capacity t journal := by
    rintro s op t ⟨inv, journal, journaled⟩ ⟨order, h⟩
    exact ⟨inv.step h, (agrees_step_iff inv journaled h).2 order⟩
  obtain ⟨inv, journal, journaled⟩ := run.invariant keep ⟨.init capacity, _, .init capacity⟩
  exact ⟨journaled.agrees inv, fun op t h => (agrees_step_iff inv journaled h).1⟩

/-- Two transactions allocate two chunks each; the second one gives one of them back before it commits. -/
theorem replay_eq_held_iff_twoCommits : ∃ s, Labelled.Run (OrderedStep 4) (init 4)
      [.newTx 0, .newTx 1, .allocBatch 0 2, .allocBatch 1 2, .commit 0, .dealloc 1 3, .commit 1] s ∧
    s.state.allocMap = [true, true, true, false] ∧ JournalAgrees 4 s ∧
    ∀ op t, s.Step op t → (JournalAgrees 4 t ↔ s.InJournalOrder 4 op) := by
  have run : Labelled.Run (OrderedStep 4) (init 4)
      [.newTx 0, .newTx 1, .allocBatch 0 2, .allocBatch 1 2, .commit 0, .dealloc 1 3, .commit 1] _ :=
    .cons ⟨trivial, trivial, rfl⟩ <| .cons ⟨trivial, trivial, rfl⟩ <| .cons ⟨trivial, trivial, rfl⟩ <|
    .cons ⟨trivial, trivial, rfl⟩ <| .cons ⟨?_, trivial, rfl⟩ <|
      .cons ⟨trivial, .inl ⟨_, rfl, rfl⟩, rfl⟩ <|
    .single ⟨?_, trivial, rfl⟩
  · exact ⟨_, run, rfl, replay_eq_held_iff run⟩
  all_goals
    intro edit journal found replayed
    cases found
    cases replayed
    decide

/-- Two transactions allocate a chunk each; the second commits, then the first aborts. The journal
has the chunk of the first. -/
theorem overtaken_commit : ∃ ops s, Labelled.Run Step (init 2) ops s ∧ s.ongoing = ∅ ∧
    s.state.allocMap = [false, true] ∧ ¬ JournalAgrees 2 s := by
  refine ⟨[.newTx 0, .newTx 1, .alloc 0, .alloc 1, .commit 1, .abort 0], _,
    .cons ⟨trivial, rfl⟩ (.cons ⟨trivial, rfl⟩ (.cons ⟨trivial, rfl⟩ (.cons ⟨trivial, rfl⟩
      (.cons ⟨trivial, rfl⟩ (.cons ⟨trivial, rfl⟩ (.nil _)))))), rfl, rfl, ?_⟩
  rintro ⟨journal, replayed, -, idle⟩
  have journal_eq : journal.allocMap = [true, false] := by
    cases replayed
    rfl
  cases journal_eq.symm.trans (idle rfl)

end ChunkSystem

end OmegaOsx.MlsDisk
