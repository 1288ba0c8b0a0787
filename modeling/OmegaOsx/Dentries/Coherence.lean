import OmegaOsx.Dentries.Basic
import OmegaOsx.Lib.Run
import OmegaOsx.MlsDisk.Basic

/-!
# Coherence of the dentry cache

A cached entry tells what the inode layer would answer. `rename` keeps that up only in part: it moves the cached child
even if the inode layer has done nothing, because both names are links of one inode; and if the old name is not cached,
what is cached under the new one becomes or stays negative.

`assign` changes a name in the inode layer and in the cache together, and `alloc` makes a new dentry. Every call is a
sequence of these, and both keep `Inv`. Next to coherence it says that a directory has one name and one dentry, which is
cached under that name: another dentry of a directory would not notice what is done through the first.
-/

namespace OmegaOsx.Dentries

open Function Children Except

open MlsDisk (bind_ok update_same)

variable {entry : Option (Option Nat)} {mounted : Nat → Bool} {refusal : Option Nat}

namespace State

variable {s s' : State} {d e c i : Nat} {name : String}

/-- An entry of the cache against what the inode layer has. -/
def Agrees (s : State) (inode : Option Nat) : Option (Option Nat) → Prop
  | none => True
  | some none => inode = none
  | some (some child) => child < s.next ∧ inode = some (s.inode child)

def Coherent (s : State) : Prop :=
  ∀ d < s.next, ∀ name, s.Agrees (s.fs.entries (s.inode d) name) (s.children d name)

structure Inv (s : State) : Prop where
  coherent : s.Coherent
  dirs : ∀ {p name i}, s.fs.entries p name = some i → s.fs.isDir p = true
  single : ∀ {p name p' name' i}, s.fs.isDir i = true → s.fs.entries p name = some i →
    s.fs.entries p' name' = some i → p' = p ∧ name' = name
  unique : ∀ {d e}, d < s.next → e < s.next → s.inode e = s.inode d → s.fs.isDir (s.inode d) = true → e = d
  placed : ∀ {c p name}, c < s.next → s.fs.isDir (s.inode c) = true → s.fs.entries p name = some (s.inode c) →
    ∃ d < s.next, s.inode d = p ∧ s.children d name = some (some c)

/-! ## Changing one name -/

/-- The name of the inode of `d` is given to an inode or to none, and its entry in the cache of `d` is replaced. -/
def assign (s : State) (d : Nat) (name : String) (inode : Option Nat) (entry : Option (Option Nat)) : State :=
  ({ s with fs := s.fs.set (s.inode d) name inode }).setChildren d (Function.update (s.children d) name entry)

@[simp] theorem next_assign {inode entry} : (s.assign d name inode entry).next = s.next := rfl

@[simp] theorem isDir_assign {inode entry} : (s.assign d name inode entry).fs.isDir = s.fs.isDir := rfl

@[simp] theorem inode_assign {inode entry} : (s.assign d name inode entry).inode e = s.inode e := by
  unfold assign setChildren State.inode
  exact update_same s.dentries (·.inode) (by rfl) e

theorem entries_assign {inode entry p name'} : (s.assign d name inode entry).fs.entries p name' =
    if p = s.inode d ∧ name' = name then inode else s.fs.entries p name' := by
  simp only [assign, setChildren, Fs.set, update_apply]
  grind

theorem children_assign {inode entry name'} : (s.assign d name inode entry).children e name' =
    if e = d ∧ name' = name then entry else s.children e name' := by
  unfold assign setChildren children
  by_cases eq : e = d
  · subst eq
    simp [update_apply]
  · simp [eq]

theorem agrees_assign {inode entry v w} : (s.assign d name inode entry).Agrees v w ↔ s.Agrees v w := by
  obtain _ | _ | child := w <;> simp [Agrees]

/-- What a name can be given to: an inode without another name, cached there if it is a directory that has a dentry. -/
structure Fits (s : State) (d : Nat) (name : String) (inode : Option Nat) (entry : Option (Option Nat)) : Prop where
  lt : d < s.next
  agrees : s.Agrees inode entry
  dir : inode ≠ none → s.fs.isDir (s.inode d) = true
  free : ∀ i, inode = some i → s.fs.isDir i = true → ∀ p name', s.fs.entries p name' ≠ some i
  cached : ∀ i, inode = some i → s.fs.isDir i = true → ∀ c < s.next, s.inode c = i → entry = some (some c)

variable {inode : Option Nat} {p : Nat}

theorem Inv.assign (inv : s.Inv) (fits : s.Fits d name inode entry) : (s.assign d name inode entry).Inv where
  coherent e lt name' := by
    rw [agrees_assign, inode_assign, entries_assign, children_assign]
    have old := inv.coherent e lt name'
    by_cases here : e = d ∧ name' = name
    · obtain ⟨rfl, rfl⟩ := here
      simpa using fits.agrees
    split_ifs with same
    · obtain ⟨same, rfl⟩ := same
      -- another dentry of the same inode: then it is no directory, and has no names before or after
      have file : ¬ s.fs.isDir (s.inode d) = true := fun dir => here ⟨inv.unique fits.lt lt same dir, rfl⟩
      have none_ : inode = none := Classical.not_not.mp fun some_ => file (fits.dir some_)
      cases entries : s.fs.entries (s.inode e) name' with
      | none => rwa [none_, ← entries]
      | some i => exact absurd (same ▸ inv.dirs entries) file
    · exact old
  dirs {p name' i} named := by
    rw [entries_assign] at named
    split_ifs at named with here
    · exact here.1 ▸ fits.dir (named ▸ Option.some_ne_none i)
    · exact inv.dirs named
  single {p name' p' name'' i} dir named named' := by
    have free := fits.free i
    rw [entries_assign] at named named'
    split_ifs at named named' with here there there
    · exact ⟨there.1.trans here.1.symm, there.2.trans here.2.symm⟩
    · exact absurd named' (free named dir _ _)
    · exact absurd named (free named' dir _ _)
    · exact inv.single dir named named'
  unique lt lt' same dir := inv.unique lt lt' (by simpa using same) (by simpa using dir)
  placed {c p name'} lt dir named := by
    rw [inode_assign] at named dir
    rw [entries_assign] at named
    split_ifs at named with here
    · refine ⟨d, fits.lt, by simpa using here.1.symm, ?_⟩
      rw [children_assign, if_pos ⟨rfl, here.2⟩]
      exact fits.cached _ named dir c lt rfl
    · obtain ⟨e, lt', rfl, child⟩ := inv.placed lt dir named
      refine ⟨e, lt', by simp, ?_⟩
      rw [children_assign, if_neg fun both => here ⟨by rw [both.1], both.2⟩, child]

theorem Fits.none (lt : d < s.next) (agrees : s.Agrees none entry) : s.Fits d name none entry :=
  ⟨lt, agrees, fun some_ => absurd rfl some_, nofun, nofun⟩

theorem inode_alloc_of_lt (lt : e < s.next) : (s.alloc i).inode e = s.inode e := by
  simp [alloc, inode, update_of_ne (ne_of_lt lt)]

theorem children_alloc_of_lt (lt : e < s.next) : (s.alloc i).children e = s.children e := by
  simp [alloc, children, update_of_ne (ne_of_lt lt)]

@[simp] theorem inode_alloc_next : (s.alloc i).inode s.next = i := by simp [alloc, inode]

/-- A new dentry, of a directory that has no name and no dentry yet, or of another inode. -/
theorem Inv.alloc (inv : s.Inv) (free : s.fs.isDir i = true → ∀ p name, s.fs.entries p name ≠ some i)
    (new : s.fs.isDir i = true → ∀ c < s.next, s.inode c ≠ i) : (s.alloc i).Inv where
  coherent e lt name := by
    rcases Nat.lt_succ_iff_lt_or_eq.mp lt with lt | rfl
    · rw [inode_alloc_of_lt lt, children_alloc_of_lt lt]
      have old := inv.coherent e lt name
      cases entry : s.children e name with
      | none => trivial
      | some child =>
        rw [entry] at old
        cases child with
        | none => exact old
        | some child => exact ⟨Nat.lt_succ_of_lt old.1, by rw [inode_alloc_of_lt old.1]; exact old.2⟩
    · simp [State.alloc, State.children, Agrees]
  dirs named := inv.dirs named
  single := inv.single
  unique {d e} lt lt' same dir := by
    rcases Nat.lt_succ_iff_lt_or_eq.mp lt with lt | rfl <;> rcases Nat.lt_succ_iff_lt_or_eq.mp lt' with lt' | rfl
    · rw [inode_alloc_of_lt lt] at same dir
      rw [inode_alloc_of_lt lt'] at same
      exact inv.unique lt lt' same dir
    · rw [inode_alloc_of_lt lt, inode_alloc_next] at same
      rw [inode_alloc_of_lt lt, ← same] at dir
      exact absurd same.symm (new dir d lt)
    · rw [inode_alloc_of_lt lt', inode_alloc_next] at same
      rw [inode_alloc_next] at dir
      exact absurd same (new dir e lt')
    · rfl
  placed {c p name} lt dir named := by
    rcases Nat.lt_succ_iff_lt_or_eq.mp lt with lt | rfl
    · rw [inode_alloc_of_lt lt] at dir named
      obtain ⟨d, lt', same, child⟩ := inv.placed lt dir named
      exact ⟨d, Nat.lt_succ_of_lt lt', by rw [inode_alloc_of_lt lt', same], by rw [children_alloc_of_lt lt', child]⟩
    · rw [inode_alloc_next] at dir named
      exact absurd named (free dir p name)

/-! ## The calls -/

theorem set_self {fs : Fs} {v : Option Nat} (eq : fs.entries p name = v) : fs.set p name v = fs := by
  subst eq
  simp [Fs.set]

/-- Whatever was under the name before, a new dentry with that name is all there is. -/
theorem assign_alloc_assign (lt : d < s.next) :
    ((s.assign d name none none).alloc i).assign d name inode entry = (s.alloc i).assign d name inode entry := by
  have ne : d ≠ s.next := ne_of_lt lt
  simp only [assign, setChildren, State.alloc, Fs.set, State.inode, State.children, update_self,
    update_of_ne ne, update_idem, State.mk.injEq, and_true, true_and]
  rw [update_comm ne.symm, update_idem]
  exact update_comm ne _ _ _

/-- The inode can be cached, or it is a file whose name is not cached. -/
def Keepable (s : State) (d : Nat) (name : String) (i : Nat) : Prop :=
  s.fs.cacheable i = true ∨ s.fs.isDir i = false ∧ s.children d name = none

/-- A new dentry, for a name that its inode has or gets. -/
theorem Inv.adopt (inv : s.Inv) (lt : d < s.next) (dir : s.fs.isDir (s.inode d) = true) (keep : s.Keepable d name i)
    (only : s.fs.isDir i = true → ∀ p name', s.fs.entries p name' = some i → p = s.inode d ∧ name' = name)
    (new : s.fs.isDir i = true → ∀ c < s.next, s.inode c ≠ i) :
    ((s.alloc i).assign d name (some i) (if s.fs.cacheable i then some (some s.next) else s.children d name)).Inv := by
  rw [← assign_alloc_assign lt]
  have removed : (s.assign d name none none).Inv := inv.assign (.none lt trivial)
  have free : s.fs.isDir i = true → ∀ p name', (s.assign d name none none).fs.entries p name' ≠ some i := by
    intro dir p name' named
    rw [entries_assign] at named
    split_ifs at named with here
    exact here (only dir p name' named)
  refine (removed.alloc free fun dir c lt => ?_).assign ⟨Nat.lt_succ_of_lt lt, ?_, ?_, ?_, ?_⟩
  · rw [inode_assign]
    exact new dir c lt
  · split_ifs with cacheable
    · exact ⟨Nat.lt_succ_self _, congrArg some (inode_alloc_next).symm⟩
    · rw [(keep.resolve_left cacheable).2]
      trivial
  · intro _
    rw [inode_alloc_of_lt (s := s.assign d name none none) lt, inode_assign]
    exact dir
  · rintro _ ⟨⟩ dir
    exact free dir
  · rintro _ ⟨⟩ dir c lt' same
    rcases Nat.lt_succ_iff_lt_or_eq.mp lt' with lt' | rfl
    · rw [inode_alloc_of_lt lt', inode_assign] at same
      exact absurd same (new dir c lt')
    · refine if_pos (keep.resolve_right fun file => ?_)
      exact absurd (file.1.symm.trans dir) (by decide)

theorem insertIfCacheable_alloc (lt : d < s.next) :
    (({ s with fs := s.fs.set (s.inode d) name (some i) }).alloc i).insertIfCacheable d name s.next =
      (s.alloc i).assign d name (some i) (if s.fs.cacheable i then some (some s.next) else s.children d name) := by
  have ne : d ≠ s.next := ne_of_lt lt
  have same : (({ s with fs := s.fs.set (s.inode d) name (some i) }).alloc i).inode s.next = i := inode_alloc_next
  rw [insertIfCacheable, same, assign, inode_alloc_of_lt lt]
  change (if s.fs.cacheable i = true then _ else _) = _
  split_ifs
  · rfl
  · simp [setChildren, alloc, children, Fs.set, update_of_ne ne]

theorem Inv.add {call : Except Errno Fs} (inv : s.Inv) (lt : d < s.next) (keep : s.Keepable d name i)
    (effect : ∀ fs, call = .ok fs → fs = s.fs.set (s.inode d) name (some i) ∧
      (s.fs.isDir i = true → (∀ p name', s.fs.entries p name' ≠ some i) ∧ ∀ c < s.next, s.inode c ≠ i)) :
    (s.add d name i call).2.Inv := by
  unfold State.add
  split_ifs with file
  · exact inv
  · exact inv
  · cases call with
    | error e => exact inv
    | ok fs =>
      obtain ⟨rfl, new⟩ := effect fs rfl
      show State.Inv (insertIfCacheable _ d name s.next)
      rw [insertIfCacheable_alloc lt]
      exact inv.adopt lt (by simpa using file) keep (fun dir p name' named => absurd named ((new dir).1 p name'))
        fun dir => (new dir).2

theorem create_effect {fs fs' : Fs} (eq : fs.create refusal p name i = .ok fs') : fs' = fs.set p name (some i) := by
  unfold Fs.create at eq
  cases refusal with
  | some code => cases eq
  | none =>
    split_ifs at eq
    exact (ok.inj eq).symm

theorem Inv.lookup (inv : s.Inv) (lt : d < s.next)
    (keep : ∀ i, s.fs.entries (s.inode d) name = some i → s.children d name ≠ none ∨ s.Keepable d name i) :
    (s.lookup d name refusal).2.Inv := by
  unfold State.lookup State.lookupViaCache find
  cases cached : s.children d name with
  | some entry => cases entry <;> exact inv
  | none =>
    unfold State.lookupViaFs Fs.lookup
    cases refusal with
    | some code => simpa using inv
    | none =>
      split_ifs with file
      · simpa using inv
      · cases named : s.fs.entries (s.inode d) name with
        | none =>
          dsimp only
          split_ifs
          · have same : s.setChildren d ((s.children d).insertNegative name) = s.assign d name none (some none) := by
              rw [State.assign, set_self named]
              rfl
            rw [same]
            exact inv.assign (.none lt rfl)
          · exact inv
        | some i =>
          have adopt : _ = (s.alloc i).assign d name (some i) _ := insertIfCacheable_alloc lt
          have keep := (keep i named).resolve_left fun some_ => some_ cached
          rw [set_self named] at adopt
          show State.Inv (insertIfCacheable _ d name s.next)
          rw [adopt]
          refine inv.adopt lt (by simpa using file) keep (fun dir p name' named' => inv.single dir named named') ?_
          -- a dentry of the directory would be cached under its only name
          rintro dir c lt' rfl
          obtain ⟨e, lt'', same, child⟩ := inv.placed lt' dir named
          obtain rfl := inv.unique lt lt'' same (by simpa using file)
          cases cached.symm.trans child

theorem agrees_taken (w : Option (Option Nat)) : s.Agrees none (taken w) := by
  cases w with
  | none => trivial
  | some _ => rfl

theorem Inv.remove {wanted : Bool} (inv : s.Inv) (lt : d < s.next) :
    (s.remove wanted mounted d name refusal).2.Inv := by
  unfold State.remove
  split_ifs
  · exact inv
  split
  · exact inv
  · exact inv
  · next fs _ eq =>
    have effect : fs = s.fs.set (s.inode d) name none := by
      unfold Fs.remove at eq
      split at eq
      · cases eq
      · cases eq
      · split_ifs at eq
        exact (ok.inj eq).symm
    subst effect
    exact inv.assign (.none lt (agrees_taken _))

variable {newDir : Nat} {old new : String}

/-- The old name goes, then the inode gets the new one. -/
theorem Inv.moved {entry' : Option (Option Nat)} (inv : s.Inv) (lt : d < s.next) (lt' : newDir < s.next)
    (dir : s.fs.isDir (s.inode newDir) = true) (named : s.fs.entries (s.inode d) old = some i)
    (agrees : s.Agrees none entry) (agrees' : s.Agrees (some i) entry')
    (cached : s.fs.isDir i = true → ∀ c < s.next, s.inode c = i → entry' = some (some c)) :
    ((s.assign d old none entry).assign newDir new (some i) entry').Inv := by
  refine (inv.assign (.none lt agrees)).assign ⟨lt', agrees_assign.mpr agrees', fun _ => ?_, ?_, ?_⟩
  · rwa [inode_assign]
  · rintro _ ⟨⟩ isDir p name' again
    rw [entries_assign] at again
    split_ifs at again with here
    exact here (inv.single isDir named again)
  · rintro _ ⟨⟩ isDir c lt same
    exact cached isDir c lt (by rwa [inode_assign] at same)

theorem renameCached_some (cacheable : s.fs.cacheable (s.inode c) = true) (cached : s.children d old = some (some c)) :
    ({ s with fs := (s.fs.set (s.inode d) old none).set (s.inode newDir) new (some i) } : State).renameCached d old
        newDir new (some c) = (s.assign d old none (some none)).assign newDir new (some i) (some (some c)) := by
  have here : ∀ fs, ({ s with fs }).children d = s.children d := fun _ => rfl
  rw [renameCached, here, delete, cached, assign, inode_assign]
  refine if_pos ?_
  have same := @inode_assign s d c old none (some none)
  exact same ▸ cacheable

theorem renameCached_none (cached : s.children d old = none) (cached' : s.children newDir new = none) :
    ({ s with fs := (s.fs.set (s.inode d) old none).set (s.inode newDir) new (some i) } : State).renameCached d old
        newDir new none = (s.assign d old none none).assign newDir new (some i) none := by
  have same : s.assign d old none none = { s with fs := s.fs.set (s.inode d) old none } := by
    rw [assign, ← cached, update_eq_self]
    unfold setChildren
    congr 1
    exact update_eq_self d s.dentries
  have here : ∀ fs, ({ s with fs }).children newDir = s.children newDir := fun _ => rfl
  rw [renameCached, here, delete, cached', same]
  rfl

theorem checkRename_find {child : Option Nat} (checked : s.checkRename mounted d old newDir new = .ok child) :
    (s.children d).find old = .ok child := by
  obtain ⟨_, _, checked⟩ := bind_ok.mp checked
  obtain ⟨child', found, checked⟩ := bind_ok.mp checked
  obtain ⟨_, _, same⟩ := bind_ok.mp checked
  exact ok.inj same ▸ found

theorem Inv.rename (inv : s.Inv) (lt : d < s.next) (lt' : newDir < s.next)
    (clean : d = newDir ∧ old = new ∨ ∀ i, s.fs.entries (s.inode d) old = some i →
      s.fs.entries (s.inode newDir) new ≠ some i ∧ (s.fs.cacheable i = true ∨ s.children d old = none) ∧
        (s.children d old ≠ none ∨ s.children newDir new = none)) :
    (s.rename mounted d old newDir new refusal).2.Inv := by
  unfold State.rename
  split_ifs with dots files same
  · exact inv
  · exact inv
  · exact inv
  split
  · exact inv
  · exact inv
  · next child fs checked eq =>
    -- the inode layer has found the old name
    unfold Fs.rename at eq
    split at eq
    · cases eq
    · cases eq
    · next _ i named =>
      obtain ⟨other, cacheable, cached⟩ := (clean.resolve_left same) i named
      rw [if_neg other] at eq
      obtain rfl := ok.inj eq
      have dir : s.fs.isDir (s.inode newDir) = true := by
        simp only [Bool.not_eq_true', Bool.not_eq_false, Bool.and_eq_true] at files
        exact files.2
      have dir' : s.fs.isDir (s.inode d) = true := inv.dirs named
      have found := checkRename_find checked
      have coherent := inv.coherent d lt old
      unfold find at found
      split at found
      · next c entry =>
        cases found
        rw [entry, named] at coherent
        obtain ⟨ltc, eq⟩ := coherent
        obtain rfl := Option.some.inj eq
        rw [renameCached_some (cacheable.resolve_right fun none_ => nomatch none_.symm.trans entry) entry]
        exact inv.moved lt lt' dir named rfl
          ⟨ltc, rfl⟩ fun isDir e lte same => by rw [inv.unique ltc lte same isDir]
      · cases found
      · next entry =>
        cases found
        rw [renameCached_none entry (cached.resolve_left fun some_ => some_ entry)]
        refine inv.moved lt lt' dir named trivial trivial ?_
        rintro isDir c ltc rfl
        obtain ⟨e, lte, same, child⟩ := inv.placed ltc isDir named
        obtain rfl := inv.unique lt lte same dir'
        cases entry.symm.trans child

/-! ## Runs -/

/-- The calls; `refusal` is an error of the inode layer, and `mounted` tells which dentries are mountpoints. -/
inductive Op
  | create (d : Nat) (name : String) (new : Nat) (refusal : Option Nat)
  | link (d old : Nat) (name : String) (refusal : Option Nat)
  | lookup (d : Nat) (name : String) (refusal : Option Nat)
  | unlink (mounted : Nat → Bool) (d : Nat) (name : String) (refusal : Option Nat)
  | rmdir (mounted : Nat → Bool) (d : Nat) (name : String) (refusal : Option Nat)
  | rename (mounted : Nat → Bool) (d : Nat) (old : String) (newDir : Nat) (new : String) (refusal : Option Nat)

def exec (s : State) : Op → State
  | .create d name new refusal => (s.create d name new refusal).2
  | .link d old name refusal => (s.link d old name refusal).2
  | .lookup d name refusal => (s.lookup d name refusal).2
  | .unlink mounted d name refusal => (s.unlink mounted d name refusal).2
  | .rmdir mounted d name refusal => (s.rmdir mounted d name refusal).2
  | .rename mounted d old newDir new refusal => (s.rename mounted d old newDir new refusal).2

/-- The pointers are those of dentries, and a new inode has no name and no dentry yet. -/
def Valid (s : State) : Op → Prop
  | .create d _ new _ => d < s.next ∧ (∀ p name, s.fs.entries p name ≠ some new) ∧
    ∀ c < s.next, s.inode c ≠ new
  | .link d old _ _ => d < s.next ∧ old < s.next
  | .lookup d _ _ | .unlink _ d _ _ | .rmdir _ d _ _ => d < s.next
  | .rename _ d _ newDir _ _ => d < s.next ∧ newDir < s.next

/-- What a call names can be cached, or is a file that is not cached; a rename is not from one link of an inode to
another, and finds its old name cached or its new one not cached. -/
def Clean (s : State) : Op → Prop
  | .create d name new _ => s.Keepable d name new
  | .link d old name _ => s.Keepable d name (s.inode old)
  | .lookup d name _ => ∀ i, s.fs.entries (s.inode d) name = some i → s.children d name ≠ none ∨
    s.Keepable d name i
  | .unlink _ _ _ _ | .rmdir _ _ _ _ => True
  | .rename _ d old newDir new _ => d = newDir ∧ old = new ∨ ∀ i, s.fs.entries (s.inode d) old = some i →
    s.fs.entries (s.inode newDir) new ≠ some i ∧ (s.fs.cacheable i = true ∨ s.children d old = none) ∧
      (s.children d old ≠ none ∨ s.children newDir new = none)

def Step (s : State) (op : Op) (s' : State) : Prop := s.Valid op ∧ s.Clean op ∧ s' = s.exec op

theorem Inv.exec {op : Op} (inv : s.Inv) (valid : s.Valid op) (clean : s.Clean op) : (s.exec op).Inv := by
  cases op with
  | create d name new refusal =>
    exact inv.add valid.1 clean fun fs eq => ⟨create_effect eq, fun _ => ⟨valid.2.1, valid.2.2⟩⟩
  | link d old name refusal =>
    refine inv.add valid.1 clean fun fs eq => ?_
    unfold Fs.link at eq
    split_ifs at eq with dir
    exact ⟨create_effect eq, fun is => absurd is dir⟩
  | lookup d name refusal => exact inv.lookup valid clean
  | unlink mounted d name refusal => exact inv.remove valid
  | rmdir mounted d name refusal => exact inv.remove valid
  | rename mounted d old newDir new refusal => exact inv.rename valid.1 valid.2 clean

/-- Nothing is cached yet, and there is a dentry for the root, which has no name. Directories have at most one. -/
structure Start (s : State) : Prop where
  next : s.next = 1
  empty : ∀ name, s.children 0 name = none
  root : ∀ p name, s.fs.entries p name ≠ some (s.inode 0)
  dirs : ∀ {p name i}, s.fs.entries p name = some i → s.fs.isDir p = true
  single : ∀ {p name p' name' i}, s.fs.isDir i = true → s.fs.entries p name = some i →
    s.fs.entries p' name' = some i → p' = p ∧ name' = name

theorem Start.inv (start : s.Start) : s.Inv where
  coherent d lt name := by
    obtain rfl : d = 0 := by
      have := start.next
      omega
    rw [start.empty name]
    trivial
  dirs := start.dirs
  single := start.single
  unique lt lt' _ _ := by
    have := start.next
    omega
  placed {c p name} lt _ named := by
    obtain rfl : c = 0 := by
      have := start.next
      omega
    exact absurd named (start.root p name)

/-- In every run in which what is named can be cached, and each rename is of a cached name or to one that is not cached
and never between two links of one inode, every cached entry tells what the inode layer would answer. -/
theorem run_coherent {ops : List Op} (start : s.Start) (run : Labelled.Run Step s ops s') : s'.Coherent := by
  have keep : ∀ a op b, a.Inv → Step a op b → b.Inv := by
    rintro a op b inv ⟨valid, clean, rfl⟩
    exact inv.exec valid clean
  exact (run.invariant keep start.inv).coherent

/-- An empty file system; the root is inode 0. -/
def emptyState : State :=
  ⟨⟨fun _ _ => none, fun i => i == 0, fun _ => true⟩, fun _ => ⟨0, fun _ => none⟩, 1⟩

theorem emptyState_start : emptyState.Start := ⟨rfl, fun _ => rfl, nofun, nofun, nofun⟩

def oneFile : State := emptyState.exec (.create 0 "a" 1 none)

/-- The file gets a second name, which is removed again, and its first name is changed. -/
def fourCalls : List Op :=
  [.create 0 "a" 1 none, .link 0 1 "b" none, .unlink (fun _ => false) 0 "b" none,
    .rename (fun _ => false) 0 "a" 0 "c" none]

theorem run_coherent_fourCalls : (fourCalls.foldl exec emptyState).Coherent ∧
    ((fourCalls.foldl exec emptyState).children 0 "a", (fourCalls.foldl exec emptyState).children 0 "b",
      (fourCalls.foldl exec emptyState).children 0 "c") = (some none, some none, some (some 1)) := by
  have run : Labelled.Run Step emptyState fourCalls (fourCalls.foldl exec emptyState) := by
    refine .cons ⟨⟨by decide, nofun, fun _ _ => zero_ne_one⟩, .inl rfl, rfl⟩ ?_
    refine .cons ⟨⟨show 0 < 2 by decide, show 1 < 2 by decide⟩, .inl rfl, rfl⟩ ?_
    refine .cons ⟨show 0 < 3 by decide, trivial, rfl⟩ ?_
    refine .single ⟨⟨show 0 < 3 by decide, show 0 < 3 by decide⟩, .inr fun i named => ?_, rfl⟩
    obtain rfl : 1 = i := Option.some.inj named
    exact ⟨by decide +kernel, .inl rfl, .inl (by decide +kernel)⟩
  exact ⟨run_coherent emptyState_start run, by decide +kernel⟩

/-- `b` becomes a link of the file, and `a` is renamed to `b`. -/
def renamedLink : Except Errno Unit × State :=
  (oneFile.exec (.link 0 1 "b" none)).rename (fun _ => false) 0 "a" 0 "b" none

/-- Both names of the inode are there after the rename, but the cache says that `a` is not. -/
theorem renamed_link_lost : renamedLink.1 = .ok () ∧ renamedLink.2.fs.entries 0 "a" = some 1 ∧
    renamedLink.2.children 0 "a" = some none ∧ ¬ renamedLink.2.Coherent := by
  have there : renamedLink.2.fs.entries 0 "a" = some 1 := by decide +kernel
  have negative : renamedLink.2.children 0 "a" = some none := by decide +kernel
  refine ⟨by decide +kernel, there, negative, fun coherent => ?_⟩
  have agrees := coherent 0 (by decide +kernel) "a"
  cases there.symm.trans agrees

end State

end OmegaOsx.Dentries
