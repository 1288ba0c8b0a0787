import Mathlib.Data.Set.Insert

/-!
# Trees of pointers

A store holds pointers, in a root table and in blocks. A shape names the places of a tree: each place lies in
the root table, or in the block the pointer at its parent leads to. `Located` says that `loc` is the pointer
at every place of a store.

`Tree` is what a tree in use keeps: a set of places that is closed under parents, with different pointers at
different places, none of them zero, and zero at the other places of `clean` that can be read through it. A
pointer that is written into a free place (`Tree.attach`) or dropped from the leaves (`Tree.restrict`) leaves
the rest of the tree as it is, and so does a block that is none of the tree's (`Tree.setBlock`).
-/

namespace PointerTree

open Option

structure Store (B I : Type*) where
  root : I → B
  block : B → I → B

structure Shape (P I : Type*) where
  valid : Set P
  parent : P → Option P
  slot : P → I
  height : P → Nat
  height_parent : ∀ {p q}, parent p = some q → height q < height p
  slot_inj : ∀ {p q}, p ∈ valid → q ∈ valid → parent p = parent q → slot p = slot q → p = q

namespace Store

variable {B I : Type*} (st : Store B I)

/-- The pointer in a slot of the root table or of a block. -/
def read : Option B → I → B
  | none, i => st.root i
  | some b, i => st.block b i

variable [DecidableEq B]

def setBlock (b : B) (content : I → B) : Store B I :=
  { st with block := Function.update st.block b content }

theorem read_setBlock_of_ne {b : B} {h : Option B} (content : I → B) (i : I) (ne : h ≠ some b) :
    (st.setBlock b content).read h i = st.read h i := by
  cases h with
  | none => rfl
  | some b' =>
    have : b' ≠ b := fun same => ne (congrArg some same)
    simp [setBlock, read, this]

variable [DecidableEq I]

def set : Option B → I → B → Store B I
  | none, i, v => { st with root := Function.update st.root i v }
  | some b, i, v => { st with block := Function.update st.block b (Function.update (st.block b) i v) }

theorem read_set_self (h : Option B) (i : I) (v : B) : (st.set h i v).read h i = v := by
  cases h <;> simp [set, read]

theorem read_set_of_ne {h h' : Option B} {i i' : I} (v : B) (ne : h' = h → i' ≠ i) :
    (st.set h i v).read h' i' = st.read h' i' := by
  cases h with
  | none =>
    cases h' with
    | none => simp [set, read, ne rfl]
    | some b' => rfl
  | some b =>
    cases h' with
    | none => rfl
    | some b' =>
      by_cases same : b' = b
      · subst same
        simp [set, read, ne rfl]
      · simp [set, read, same]

end Store

section

variable {P B I : Type*} {sh : Shape P I} {st : Store B I} {loc loc' : P → B}
  {used clean : Set P} {zero v b : B} {p q : P}

/-- `loc` is the pointer at every place. -/
def Located (sh : Shape P I) (st : Store B I) (loc : P → B) : Prop :=
  ∀ p, loc p = st.read ((sh.parent p).map loc) (sh.slot p)

/-- The place lies in the root table or in a block of the set. -/
def Attached (sh : Shape P I) (used : Set P) (p : P) : Prop := ∀ q, sh.parent p = some q → q ∈ used

structure Tree (sh : Shape P I) (zero : B) (loc : P → B) (used clean : Set P) : Prop where
  valid : ∀ p ∈ used, p ∈ sh.valid
  closed : ∀ p ∈ used, Attached sh used p
  inj : ∀ p ∈ used, ∀ q ∈ used, loc p = loc q → p = q
  ne : ∀ p ∈ used, loc p ≠ zero
  clean : ∀ p ∈ clean, p ∈ sh.valid → p ∉ used → Attached sh used p → loc p = zero

theorem Attached.mono {used' : Set P} (sub : used ⊆ used') (h : Attached sh used p) : Attached sh used' p :=
  fun q eq => sub (h q eq)

/-- What can be read through the set stays, if the slots of its places do. -/
theorem Located.congr {st' : Store B I} (h : Located sh st loc) (h' : Located sh st' loc')
    (closed : ∀ p ∈ used, Attached sh used p) (good : P → Prop) (sub : ∀ p ∈ used, good p)
    (same : ∀ p, good p → Attached sh used p →
      st'.read ((sh.parent p).map loc) (sh.slot p) = st.read ((sh.parent p).map loc) (sh.slot p))
    (ok : good p) (at' : Attached sh used p) : loc' p = loc p := by
  -- By induction over the height: the parent is in the set, and its pointer stays.
  induction height : sh.height p using Nat.strong_induction_on generalizing p with
  | _ n ih =>
    have parents : (sh.parent p).map loc' = (sh.parent p).map loc := by
      cases eq : sh.parent p with
      | none => rfl
      | some q =>
        have mem := at' q eq
        exact congrArg some (ih _ (height ▸ sh.height_parent eq) (sub q mem) (closed q mem) rfl)
    rw [h' p, h p, parents, same p ok at']

namespace Tree

variable (tree : Tree sh zero loc used clean)
include tree

variable {clean' : Set P}

theorem congr (same : ∀ q ∈ used, loc' q = loc q)
    (zeroed : ∀ p ∈ clean', p ∈ sh.valid → p ∉ used → Attached sh used p → loc' p = zero) :
    Tree sh zero loc' used clean' where
  valid := tree.valid
  closed := tree.closed
  inj p mem q mem' eq := tree.inj p mem q mem' (by rwa [same p mem, same q mem'] at eq)
  ne p mem := same p mem ▸ tree.ne p mem
  clean := zeroed

theorem mono (sub : clean' ⊆ clean) : Tree sh zero loc used clean' :=
  tree.congr (fun _ _ => rfl) fun p mem => tree.clean p (sub mem)

/-- Leaves may leave the tree; their pointers stay where they are. -/
theorem restrict {used' : Set P} (sub : used' ⊆ used)
    (closed : ∀ p ∈ used', Attached sh used' p) : Tree sh zero loc used' (clean \ (used \ used')) where
  valid p mem := tree.valid p (sub mem)
  closed := closed
  inj p mem q mem' := tree.inj p (sub mem) q (sub mem')
  ne p mem := tree.ne p (sub mem)
  clean p mem valid free attached := tree.clean p mem.1 valid (fun used => mem.2 ⟨used, free⟩) (attached.mono sub)

end Tree

variable [DecidableEq B] {content : I → B}

theorem Located.setBlock (h : Located sh st loc) (h' : Located sh (st.setBlock b content) loc')
    (closed : ∀ p ∈ used, Attached sh used p) (apart : ∀ q ∈ used, loc q ≠ b) (at' : Attached sh used p) :
    loc' p = loc p := by
  refine h.congr h' closed (fun _ => True) (fun _ _ => trivial) (fun r _ attached => ?_) trivial at'
  refine st.read_setBlock_of_ne content _ ?_
  cases eq : sh.parent r with
  | none => simp
  | some q => exact fun same => apart q (attached q eq) (some.inj same)

/-- A block that is none of the tree's may change. -/
theorem Tree.setBlock (tree : Tree sh zero loc used clean) (h : Located sh st loc)
    (h' : Located sh (st.setBlock b content) loc') (apart : ∀ q ∈ used, loc q ≠ b) :
    Tree sh zero loc' used clean ∧ ∀ q, Attached sh used q → loc' q = loc q := by
  have same : ∀ q, Attached sh used q → loc' q = loc q := fun q attached => h.setBlock h' tree.closed apart attached
  refine ⟨tree.congr (fun q mem => same q (tree.closed q mem)) fun p mem valid free attached => ?_, same⟩
  rw [same p attached]
  exact tree.clean p mem valid free attached

variable [DecidableEq I]

section

variable (h : Located sh st loc) (h' : Located sh (st.set ((sh.parent p).map loc) (sh.slot p) v) loc')
  (tree : Tree sh zero loc used clean) (valid : p ∈ sh.valid) (free : p ∉ used)
include h h' tree valid free

theorem Located.set (attached : Attached sh used p)
    (valid' : q ∈ sh.valid) (ne : q ≠ p) (attached' : Attached sh used q) : loc' q = loc q := by
  refine h.congr h' tree.closed (fun r => r ∈ sh.valid ∧ r ≠ p)
    (fun r mem => ⟨tree.valid r mem, fun same => free (same ▸ mem)⟩) (fun r ok at' => ?_)
    ⟨valid', ne⟩ attached'
  refine st.read_set_of_ne v fun holders slots => ok.2 (sh.slot_inj ok.1 valid ?_ slots)
  -- Different places of the tree have different blocks, so that one block means one parent.
  cases eq : sh.parent r with
  | none =>
    cases eq' : sh.parent p with
    | none => rfl
    | some q => simp [eq, eq'] at holders
  | some q =>
    cases eq' : sh.parent p with
    | none => simp [eq, eq'] at holders
    | some q' =>
      rw [eq, eq'] at holders
      rw [tree.inj q (at' q eq) q' (attached q' eq') (some.inj holders)]

theorem Located.set_self (attached : Attached sh used p) : loc' p = v := by
  have parents : (sh.parent p).map loc' = (sh.parent p).map loc := by
    cases eq : sh.parent p with
    | none => rfl
    | some q =>
      have mem := attached q eq
      exact congrArg some (h.set h' tree valid free attached (tree.valid q mem) (fun same => free (same ▸ mem))
        (tree.closed q mem))
  rw [h' p, parents, Store.read_set_self]

end

namespace Tree

/-- A slot outside the tree may change, if it is not to be zero. -/
theorem set (tree : Tree sh zero loc used (clean \ {p})) (h : Located sh st loc)
    (h' : Located sh (st.set ((sh.parent p).map loc) (sh.slot p) v) loc') (valid : p ∈ sh.valid) (free : p ∉ used)
    (attached : Attached sh used p) (cleared : p ∈ clean → v = zero) :
    Tree sh zero loc' used clean ∧ ∀ q ∈ used, loc' q = loc q := by
  have same : ∀ q ∈ used, loc' q = loc q := fun q mem =>
    h.set h' tree valid free attached (tree.valid q mem) (fun eq => free (eq ▸ mem)) (tree.closed q mem)
  refine ⟨tree.congr same fun q mem valid' free' attached' => ?_, same⟩
  by_cases eq : q = p
  · subst eq
    rw [h.set_self h' tree valid free attached]
    exact cleared mem
  · rw [h.set h' tree valid free attached valid' eq attached']
    exact tree.clean q ⟨mem, eq⟩ valid' free' attached'

theorem attach (tree : Tree sh zero loc used clean) (h : Located sh st loc)
    (h' : Located sh (st.set ((sh.parent p).map loc) (sh.slot p) v) loc') (valid : p ∈ sh.valid) (free : p ∉ used)
    (attached : Attached sh used p) (ne : v ≠ zero) (fresh : ∀ q ∈ used, loc q ≠ v)
    (children : ∀ c ∈ clean, c ∈ sh.valid → sh.parent c = some p → st.block v (sh.slot c) = zero) :
    Tree sh zero loc' (insert p used) clean ∧ (∀ q ∈ used, loc' q = loc q) ∧ loc' p = v := by
  have self := h.set_self h' tree valid free attached
  have same : ∀ q ∈ used, loc' q = loc q := fun q mem =>
    h.set h' tree valid free attached (tree.valid q mem) (fun eq => free (eq ▸ mem)) (tree.closed q mem)
  refine ⟨⟨?_, ?_, ?_, ?_, ?_⟩, same, self⟩
  · rintro q (rfl | mem)
    · exact valid
    · exact tree.valid q mem
  · rintro q (rfl | mem)
    · exact attached.mono (Set.subset_insert _ _)
    · exact (tree.closed q mem).mono (Set.subset_insert _ _)
  · rintro q (rfl | mem) r (rfl | mem') eq
    · rfl
    · rw [self, same r mem'] at eq
      exact absurd eq.symm (fresh r mem')
    · rw [self, same q mem] at eq
      exact absurd eq (fresh q mem)
    · rw [same q mem, same r mem'] at eq
      exact tree.inj q mem r mem' eq
  · rintro q (rfl | mem)
    · rwa [self]
    · rw [same q mem]
      exact tree.ne q mem
  · intro c mem valid' free' attached'
    have other : c ≠ p := fun eq => free' (eq ▸ Set.mem_insert _ _)
    by_cases below : sh.parent c = some p
    · -- The block of the new pointer is not the one its place lies in.
      have apart : some v ≠ (sh.parent p).map loc := by
        cases eq : sh.parent p with
        | none => simp
        | some q => exact fun same => fresh q (attached q eq) (some.inj same).symm
      rw [h' c, below, map_some, self, st.read_set_of_ne v fun eq => absurd eq apart]
      exact children c mem valid' below
    · have attached'' : Attached sh used c := by
        intro q eq
        rcases attached' q eq with rfl | mem
        · exact absurd eq below
        · exact mem
      rw [h.set h' tree valid free attached valid' other attached'']
      exact tree.clean c mem valid' (fun mem => free' (Set.mem_insert_of_mem _ mem)) attached''

end Tree

end

end PointerTree
