import OmegaOsx.PageTable.Cursor

/-!
# Where a cursor stands

`Inv` ties the level, the address and the tree of a cursor: as long as the address lies in the node the
cursor is guarded by, the nodes down to the current level are there.
-/

namespace OmegaOsx.PageTable

open PagingConsts Bool Nat Function

open MlsDisk (ok_bind)

variable {level : Nat} {p : Nat} {va : Nat}

namespace PagingConsts

variable (C : PagingConsts)

/-- The slot of a level that a page lies in. -/
def slotStart (level va : Nat) : Nat := va / C.pageSize level * C.pageSize level

def slotStop (level va : Nat) : Nat := C.slotStart level va + C.pageSize level

variable {C}

theorem sameSlot_iff_between : C.SameSlot level p va ↔ C.slotStart level va ≤ p ∧ p < C.slotStop level va :=
  Radix.div_pow_eq_iff_between C.nr_pos

theorem slotStart_le (level va : Nat) : C.slotStart level va ≤ va := div_mul_le_self _ _

theorem lt_slotStop (level va : Nat) : va < C.slotStop level va := Radix.lt_slotStop C.nr_pos _ _

theorem slotStop_mono {level' : Nat} (le : level ≤ level') : C.slotStop level va ≤ C.slotStop level' va :=
  Radix.slotStop_mono C.nr_pos (Nat.sub_le_sub_right le 1) va

theorem slotStop_mono_va {va' : Nat} (le : va ≤ va') : C.slotStop level va ≤ C.slotStop level va' :=
  Radix.slotStop_mono_key _ le

theorem slotStop_succ_of_zero (pos : 1 ≤ level) (first : C.pteIndex (C.slotStop level va) level = 0) :
    C.slotStop level va = C.slotStop (level + 1) va := by
  obtain ⟨k, rfl⟩ := Nat.exists_eq_add_of_le' pos
  exact Radix.slotStop_succ_of_zero C.nr_pos first

theorem sameSlot_slotStop (pos : 1 ≤ level) (later : C.pteIndex (C.slotStop level va) level ≠ 0) :
    C.SameSlot (level + 1) (C.slotStop level va) va := by
  obtain ⟨k, rfl⟩ := Nat.exists_eq_add_of_le' pos
  exact Radix.slotStop_same_of_pos C.nr_pos later

/-- The slots below the root are managed as a whole. -/
theorem Managed.of_sameSlot (h : C.Managed va) (le : level ≤ C.nrLevels) (same : C.SameSlot level p va) :
    C.Managed p := by
  have top := same.mono le
  obtain ⟨eq, lower, upper⟩ := h.div
  have pos := C.pageSize_pos C.nrLevels
  obtain ⟨k, base⟩ := C.base
  have whole : C.vaBase = C.vaBase / C.pageSize C.nrLevels * C.pageSize C.nrLevels := by
    refine (Nat.div_mul_cancel ?_).symm
    rw [base, show C.nrSubpage ^ C.nrLevels = C.pageSize C.nrLevels * C.nrSubpage from
      C.pageSize_succ C.levels_pos, mul_assoc]
    exact Nat.dvd_mul_right _ _
  constructor
  · rw [vaddrStart, whole, ← Nat.add_mul, ← le_div_iff_mul_le pos, top]
    omega
  · rw [vaddrStop, whole, ← Nat.add_mul, ← div_lt_iff_lt_mul pos, top]
    omega

end PagingConsts

namespace Child

variable {P : Type} {C : PagingConsts}

/-! ### The way to a node -/

variable {below depth : Nat} {t : Child P}

theorem nodeAt_succ (va level depth : Nat) (t : Child P) :
    t.nodeAt C va level (depth + 1) = (t.nodeAt C va level depth).child (C.pteIndex va (level - depth)) := by
  induction depth generalizing level t with
  | zero => rfl
  | succ depth ih =>
    rw [nodeAt, ih, nodeAt, Nat.sub_sub, add_comm 1]

/-- The nodes above a node. -/
theorem isTable_nodeAt {depth' : Nat} (le : depth' ≤ depth) (h : (t.nodeAt C va level depth).isTable = true) :
    (t.nodeAt C va level depth').isTable = true := by
  induction le with
  | refl => exact h
  | step _ ih =>
    rw [nodeAt_succ] at h
    exact ih (isTable_of_child h)

theorem nodeAt_congr {va' : Nat} (sum : below + depth = level) (same : C.SameSlot (below + 1) va va') :
    t.nodeAt C va level depth = t.nodeAt C va' level depth := by
  induction depth generalizing level t with
  | zero => rfl
  | succ depth ih =>
    have top : C.pteIndex va level = C.pteIndex va' level := same.pteIndex (by omega)
    rw [nodeAt, top]
    exact ih (by omega)

/-- A page of a node is mapped as the node maps it. -/
theorem view_nodeAt (sum : below + depth = level) (h : (t.nodeAt C va level depth).isTable = true)
    (same : C.SameSlot (below + 1) p va) :
    t.view C p (level + 1) = (t.nodeAt C va level depth).view C p (below + 1) := by
  induction depth generalizing level t with
  | zero => rw [← sum]; rfl
  | succ depth ih =>
    subst sum
    have root : t.isTable = true := isTable_nodeAt (zero_le _) h
    have top : C.pteIndex p (below + depth + 1) = C.pteIndex va (below + depth + 1) := same.pteIndex (by omega)
    rw [← add_assoc, view_table root, top]
    exact ih rfl h

variable {x new : Child P}

theorem view_writePte {t : Child P} {idx : Nat} (h : t.isTable = true) : (t.writePte idx x).view C va (level + 1) =
      if C.pteIndex va level = idx then x.view C va level else t.view C va (level + 1) := by
  obtain ⟨n, children, rfl⟩ := isTable_iff.mp h
  rw [view_table rfl]
  change (update children idx x _).view C va level = _
  rw [update_apply]
  split <;> rfl

theorem child_writePte {t : Child P} {idx i : Nat} (h : t.isTable = true) :
    (t.writePte idx x).child i = if i = idx then x else t.child i := by
  obtain ⟨n, children, rfl⟩ := isTable_iff.mp h
  exact update_apply ..

/-- A new node maps the pages of its slot; the others stay. -/
theorem view_setNodeAt (new : Child P) (sum : below + depth = level) (h : (t.nodeAt C va level depth).isTable = true)
    (root : C.SameSlot (level + 1) p va) : (setNodeAt C va new level depth t).view C p (level + 1) =
      if C.SameSlot (below + 1) p va then new.view C p (below + 1) else t.view C p (level + 1) := by
  induction depth generalizing level t with
  | zero =>
    subst sum
    exact (if_pos root).symm
  | succ depth ih =>
    subst sum
    have table : t.isTable = true := isTable_nodeAt (zero_le _) h
    rw [setNodeAt, view_writePte table]
    split
    · next here =>
      refine (ih rfl h ((sameSlot_iff (succ_pos _)).mpr ⟨root, here⟩)).trans ?_
      rw [view_table table, here]
      rfl
    · next other => rw [if_neg fun same => other (same.pteIndex (by omega))]

theorem nodeAt_setNodeAt (h : (t.nodeAt C va level depth).isTable = true) :
    (setNodeAt C va new level depth t).nodeAt C va level depth = new := by
  induction depth generalizing level t with
  | zero => rfl
  | succ depth ih =>
    have table : t.isTable = true := isTable_nodeAt (zero_le _) h
    rw [setNodeAt, nodeAt, child_writePte table, if_pos rfl]
    exact ih h

theorem Valid.nodeAt (h : t.Valid C (level + 1)) (managed : C.Managed va) (sum : below + depth = level) :
    (t.nodeAt C va level depth).Valid C (below + 1) := by
  induction depth generalizing level t with
  | zero => exact sum ▸ h
  | succ depth ih =>
    subst sum
    exact ih (h.child managed.idx.1 managed.idx.2) rfl

theorem Valid.setNodeAt (h : t.Valid C (level + 1)) (path : (t.nodeAt C va level depth).isTable = true)
    (managed : C.Managed va) (sum : below + depth = level) (table : new.isTable = true)
    (hnew : new.Valid C (below + 1)) : (Child.setNodeAt C va new level depth t).Valid C (level + 1) ∧
      (Child.setNodeAt C va new level depth t).isTable = true := by
  induction depth generalizing level t with
  | zero => exact ⟨sum ▸ hnew, table⟩
  | succ depth ih =>
    subst sum
    have root : t.isTable = true := isTable_nodeAt (zero_le _) path
    have child : (t.nodeAt C va (below + depth + 1) 1).isTable = true := isTable_nodeAt (le_add_left 1 depth) path
    obtain ⟨valid, stays⟩ := ih (h.child managed.idx.1 managed.idx.2) path rfl
    have written : Child.setNodeAt C va new (below + depth + 1) (depth + 1) t =
        t.replace (C.pteIndex va (below + depth + 1)) _ :=
      writePte_eq (isNone_of_isTable child) (isNone_of_isTable stays)
    rw [← add_assoc, written, isTable_replace]
    exact ⟨h.replace valid managed.idx.1 managed.idx.2, root⟩

/-- A changed entry leaves the nodes of other slots. -/
theorem isTable_nodeAt_setNodeAt (depth' : Nat) (x : Child P) (pos : 1 ≤ below) (sum : below + depth = level)
    (h : (t.nodeAt C va level depth).isTable = true) (root : C.SameSlot (level + 1) p va)
    (other : ¬ C.SameSlot below p va) :
    ((setNodeAt C va ((t.nodeAt C va level depth).replace (C.pteIndex va below) x) level depth t).nodeAt C p
      level depth').isTable = (t.nodeAt C p level depth').isTable := by
  induction depth generalizing level depth' t with
  | zero =>
    subst sum
    cases depth' with
    | zero => exact isTable_replace
    | succ depth' =>
      change (nodeAt C p (below - 1) depth'
        ((t.replace (C.pteIndex va below) x).child (C.pteIndex p below))).isTable = _
      rw [child_replace (t := t) h, if_neg fun here => other ((sameSlot_iff pos).mpr ⟨root, here⟩)]
      rfl
  | succ depth ih =>
    subst sum
    have table : t.isTable = true := isTable_nodeAt (zero_le _) h
    cases depth' with
    | zero => exact isTable_writePte
    | succ depth' =>
      rw [setNodeAt, nodeAt, child_writePte table]
      split
      · next here =>
        refine (ih depth' rfl h ((sameSlot_iff (succ_pos _)).mpr ⟨root, here⟩)).trans ?_
        rw [nodeAt, here]
        rfl
      · rfl

end Child

/-- What the tree maps the managed pages to. -/
def pages {P : Type} (C : PagingConsts) (root : Child P) (p : Nat) : Option (Nat × P) :=
  if C.Managed p then root.view C p (C.nrLevels + 1) else none

namespace Cursor

variable {P : Type} (C : PagingConsts)

/-- The address lies in the node that the cursor is guarded by. -/
def Inside (c : Cursor P) : Prop := C.SameSlot (c.guardLevel + 1) c.va c.start

structure Inv (c : Cursor P) : Prop where
  valid : c.root.Valid C (C.nrLevels + 1)
  rooted : c.root.isTable = true
  level_pos : 1 ≤ c.level
  level_le : c.level ≤ c.guardLevel
  guard_le : c.guardLevel ≤ C.nrLevels
  start_lt : c.start < c.stop
  managed : ∀ p, c.start ≤ p → p < c.stop → C.Managed p
  inside : C.SameSlot (c.guardLevel + 1) c.start (c.stop - 1)
  start_le : c.start ≤ c.va
  placed : c.Inside C → (c.node C).isTable = true
  outside : ¬ c.Inside C → c.level = c.guardLevel

/-- The cursor stands in its range, with its node at hand. -/
structure Ready (c : Cursor P) : Prop extends Inv C c where
  before : c.va < c.stop

variable {C} {c : Cursor P}

/-- The entry the cursor stands at, changed. -/
def setEntry (C : PagingConsts) (c : Cursor P) (x : Child P) : Cursor P :=
  c.setNode C ((c.node C).replace (c.curIdx C) x)

def entry (C : PagingConsts) (c : Cursor P) : Child P := (c.node C).child (c.curIdx C)

namespace Ready

section

variable (h : Ready C c)

include h

theorem managed_va : C.Managed c.va := h.managed c.va h.start_le h.before

theorem isInside : c.Inside C := h.inside.between h.start_le (le_sub_one_of_lt h.before)

theorem table : (c.node C).isTable = true := h.placed h.isInside

theorem level_le_levels : c.level ≤ C.nrLevels := le_trans h.level_le h.guard_le

theorem curEntry : c.curEntry C = .ok (c.entry C) := if_pos h.table

theorem depth : c.level + (C.nrLevels - c.level) = C.nrLevels := add_sub_of_le h.level_le_levels

theorem managed_slot (same : C.SameSlot c.level p c.va) : C.Managed p := h.managed_va.of_sameSlot h.level_le_levels same

theorem view_node (same : C.SameSlot (c.level + 1) p c.va) :
    c.root.view C p (C.nrLevels + 1) = (c.node C).view C p (c.level + 1) :=
  Child.view_nodeAt h.depth h.table same

/-- The pages of the current slot are mapped as the entry maps them. -/
theorem pages_slot (same : C.SameSlot c.level p c.va) : pages C c.root p = (c.entry C).view C p c.level := by
  rw [pages, if_pos (h.managed_slot same), h.view_node (same.mono (le_succ _)), Child.view_table h.table,
    same.pteIndex le_rfl]
  rfl

theorem valid_node : (c.node C).Valid C (c.level + 1) := h.valid.nodeAt h.managed_va h.depth

theorem valid_entry : (c.entry C).Valid C c.level := h.valid_node.child h.managed_va.idx.1 h.managed_va.idx.2

end

end Ready

/-! ### Changing the current entry -/

section

variable (h : Ready C c)

include h

theorem node_setEntry (x : Child P) : (c.setEntry C x).node C = (c.node C).replace (c.curIdx C) x :=
  Child.nodeAt_setNodeAt h.table

theorem entry_setEntry (x : Child P) : (c.setEntry C x).entry C = x := by
  rw [entry, node_setEntry h, Child.child_replace h.table]
  exact if_pos rfl

theorem Ready.sameSlot_iff :
    C.SameSlot c.level p c.va ↔ C.SameSlot (c.level + 1) p c.va ∧ C.pteIndex p c.level = c.curIdx C :=
  PagingConsts.sameSlot_iff h.level_pos

/-- The pages of the current slot are mapped by the new entry, the others as before. -/
theorem pages_setEntry (x : Child P) (p : Nat) : pages C (c.setEntry C x).root p =
      if C.SameSlot c.level p c.va then x.view C p c.level else pages C c.root p := by
  by_cases managed : C.Managed p
  · rw [pages, pages, if_pos managed, if_pos managed]
    refine (Child.view_setNodeAt _ h.depth h.table (managed.sameSlot h.managed_va)).trans ?_
    by_cases node : C.SameSlot (c.level + 1) p c.va
    · rw [if_pos node, Child.view_replace h.table, h.view_node node]
      exact if_congr (by rw [h.sameSlot_iff]; exact (and_iff_right node).symm) rfl rfl
    · rw [if_neg node, if_neg fun same => node (same.mono (le_succ _))]
  · rw [pages, pages, if_neg managed, if_neg managed, if_neg fun same => managed (h.managed_slot same)]

theorem Ready.setEntry {x : Child P} (valid : x.Valid C c.level) : Ready C (c.setEntry C x) := by
  have table : ((c.node C).replace (c.curIdx C) x).isTable = true := by
    rw [Child.isTable_replace]
    exact h.table
  obtain ⟨valid', rooted⟩ := h.valid.setNodeAt h.table h.managed_va h.depth table
    (h.valid_node.replace valid h.managed_va.idx.1 h.managed_va.idx.2)
  refine { h with valid := valid', rooted := rooted, placed := ?_ }
  intro _
  rwa [node_setEntry h]

/-- Goes down into an entry that is a node. -/
theorem Ready.pushLevel (table : (c.entry C).isTable = true) : Ready C c.pushLevel ∧ 2 ≤ c.level := by
  have valid := h.valid_entry
  obtain ⟨n, children, eq⟩ := Child.isTable_iff.mp table
  rw [eq] at valid
  have two := valid.1
  have le := h.level_le_levels
  refine ⟨{ h with level_pos := ?_, level_le := ?_, placed := ?_, outside := absurd h.isInside }, two⟩
  · exact le_sub_one_of_lt two
  · exact le_trans (sub_le _ _) h.level_le
  intro _
  have deeper : C.nrLevels - (c.level - 1) = C.nrLevels - c.level + 1 := by omega
  change (c.root.nodeAt C c.va C.nrLevels (C.nrLevels - (c.level - 1))).isTable = true
  rw [deeper, Child.nodeAt_succ, Nat.sub_sub_self le]
  exact table

end

/-! ### Moving forward -/

/-- The slots of the cursor's range do not reach the end of the address space. -/
def Reach (C : PagingConsts) (c : Cursor P) : Prop := C.slotStop c.guardLevel (c.stop - 1) < C.vaLimit

instance decidableReach (C : PagingConsts) (c : Cursor P) : Decidable (c.Reach C) := inferInstanceAs (Decidable (_ < _))

theorem slotStop_lt_limit (h : Ready C c) (reach : c.Reach C) : C.slotStop c.level c.va < C.vaLimit :=
  lt_of_le_of_lt (le_trans (slotStop_mono h.level_le) (slotStop_mono_va (le_sub_one_of_lt h.before))) reach

theorem curVaRange_ok (h : Ready C c) (reach : c.Reach C) :
    c.curVaRange C = .ok (C.slotStart c.level c.va, C.slotStop c.level c.va) := by
  have fits : c.va / C.pageSize c.level * C.pageSize c.level + C.pageSize c.level < C.vaLimit :=
    slotStop_lt_limit h reach
  rw [curVaRange, checkedAdd, if_pos fits]
  rfl

/-- The node of another page of the same node, or of one above it. -/
theorem Inv.table_of_same (inv : Inv C c) (inside : c.Inside C) (le : c.level ≤ level) (top : level ≤ c.guardLevel)
    (same : C.SameSlot (level + 1) va c.va) : (c.root.nodeAt C va C.nrLevels (C.nrLevels - level)).isTable = true := by
  rw [Child.nodeAt_congr (add_sub_of_le (top.trans inv.guard_le)) same]
  exact Child.isTable_nodeAt (Nat.sub_le_sub_left le _) (inv.placed inside)

theorem Inv.popLevel (inv : Inv C c) (inside : c.Inside C) (below : c.level < c.guardLevel) :
    c.popLevel = .ok { c with level := c.level + 1 } ∧ Inv C { c with level := c.level + 1 } := by
  refine ⟨if_pos below, { inv with level_pos := ?_, level_le := below, placed := ?_, outside := absurd inside }⟩
  · exact succ_pos _
  · intro _
    exact inv.table_of_same inside (le_succ _) below (.refl _ _)

/-- The loop stops at a level whose slot ends at the same place, in the guarding node or where the next
slot belongs to the same node. -/
theorem climb_eq {nextVa : Nat} (fuel : Nat) (pos : 1 ≤ c.level) (le : c.level ≤ c.guardLevel)
    (enough : c.guardLevel - c.level ≤ fuel) (next : nextVa = C.slotStop c.level va) :
    ∃ level, climb C nextVa fuel c = { c with level } ∧ c.level ≤ level ∧ level ≤ c.guardLevel ∧
      nextVa = C.slotStop level va ∧ (level = c.guardLevel ∨ C.pteIndex nextVa level ≠ 0) := by
  induction fuel generalizing c with
  | zero => exact ⟨c.level, rfl, le_rfl, le, next, .inl (by omega)⟩
  | succ fuel ih =>
    rw [climb]
    split
    · next up =>
      have above : nextVa = C.slotStop (c.level + 1) va := by
        rw [next] at up ⊢
        exact slotStop_succ_of_zero pos up.2
      obtain ⟨level, eq, le', rest⟩ := ih (c := { c with level := c.level + 1 }) (le_succ_of_le pos) up.1
        (by change c.guardLevel - (c.level + 1) ≤ fuel; omega) above
      exact ⟨level, eq, le_of_succ_le le', rest⟩
    · next stays =>
      refine ⟨c.level, rfl, le_rfl, le, next, ?_⟩
      by_cases top : c.level = c.guardLevel
      · exact .inl top
      · exact .inr fun zero => stays ⟨by omega, zero⟩

theorem moveForward_ok (h : Ready C c) (reach : c.Reach C) :
    ∃ level, c.moveForward C = .ok { c with level, va := C.slotStop c.level c.va } ∧
      Inv C { c with level, va := C.slotStop c.level c.va } := by
  obtain ⟨level, eq, ge, le, next, last⟩ := climb_eq (c.guardLevel - c.level) h.level_pos h.level_le le_rfl rfl
  have same_of_later : C.pteIndex (C.slotStop c.level c.va) level ≠ 0 →
      C.SameSlot (level + 1) (C.slotStop c.level c.va) c.va := by
    intro later
    rw [next] at later ⊢
    exact sameSlot_slotStop (le_trans h.level_pos ge) later
  refine ⟨level, ?_, { h with level_pos := ?_, level_le := le, start_le := ?_, placed := ?_, outside := ?_ }⟩
  · rw [moveForward, curVaRange_ok h reach, ok_bind, eq]
    rfl
  · exact le_trans h.level_pos ge
  · exact le_trans h.start_le (le_of_lt (lt_slotStop _ _))
  · intro inside
    have same : C.SameSlot (level + 1) (C.slotStop c.level c.va) c.va := by
      rcases last with rfl | later
      · exact PagingConsts.SameSlot.trans inside h.isInside.symm
      · exact same_of_later later
    exact h.toInv.table_of_same h.isInside ge le same
  · intro outside
    rcases last with top | later
    · exact top
    · exact absurd (((same_of_later later).mono (succ_le_succ le)).trans h.isInside) outside

/-! ### Searching -/

/-- Every node whose slot lies between `lo` and `hi` maps a page. -/
def NoEmptyTable (C : PagingConsts) (root : Child P) (lo hi : Nat) : Prop :=
  ∀ p level, C.Managed p → 1 ≤ level → level < C.nrLevels → lo ≤ C.slotStart (level + 1) p →
    C.slotStop (level + 1) p ≤ hi → (root.nodeAt C p C.nrLevels (C.nrLevels - level)).isTable = true →
      ∃ q, C.SameSlot (level + 1) q p ∧ PageTable.pages C root q ≠ none

/-- The same range of the same pages. -/
structure Kept (C : PagingConsts) (c c' : Cursor P) : Prop where
  start : c'.start = c.start
  stop : c'.stop = c.stop
  guardLevel : c'.guardLevel = c.guardLevel
  pages : ∀ p, PageTable.pages C c'.root p = PageTable.pages C c.root p

/-- No new empty nodes either. -/
structure Walked (C : PagingConsts) (c c' : Cursor P) : Prop extends Kept C c c' where
  tables : ∀ lo hi, NoEmptyTable C c.root lo hi → NoEmptyTable C c'.root lo hi

section

variable {c' : Cursor P} (start : c'.start = c.start) (stop : c'.stop = c.stop)
  (guardLevel : c'.guardLevel = c.guardLevel) (root : c'.root = c.root)
include start stop guardLevel root

theorem Kept.of_root : Kept C c c' := ⟨start, stop, guardLevel, fun _ => by rw [root]⟩

theorem Walked.of_root : Walked C c c' := ⟨.of_root start stop guardLevel root, fun _ _ h => by rwa [root]⟩

end

theorem Kept.trans {c c' c'' : Cursor P} (h : Kept C c c') (h' : Kept C c' c'') : Kept C c c'' where
  start := h'.start.trans h.start
  stop := h'.stop.trans h.stop
  guardLevel := h'.guardLevel.trans h.guardLevel
  pages p := (h'.pages p).trans (h.pages p)

theorem Walked.trans {c c' c'' : Cursor P} (h : Walked C c c') (h' : Walked C c' c'') : Walked C c c'' where
  toKept := h.toKept.trans h'.toKept
  tables lo hi full := h'.tables lo hi (h.tables lo hi full)

theorem Kept.reach {c c' : Cursor P} (h : Kept C c c') (reach : c.Reach C) : c'.Reach C := by
  rw [Reach, h.stop, h.guardLevel]
  exact reach

/-- Skips a slot without pages. -/
theorem moveForward_skip (h : Ready C c) (reach : c.Reach C)
    (unmapped : ∀ p, C.SameSlot c.level p c.va → pages C c.root p = none) :
    ∃ c', c.moveForward C = .ok c' ∧ Inv C c' ∧ Walked C c c' ∧ c.va < c'.va ∧
      ∀ p, c.va ≤ p → p < c'.va → pages C c.root p = none := by
  obtain ⟨level, eq, inv⟩ := moveForward_ok h reach
  refine ⟨_, eq, inv, .of_root rfl rfl rfl rfl, lt_slotStop _ _, ?_⟩
  intro p le lt
  exact unmapped p (sameSlot_iff_between.mpr ⟨le_trans (slotStart_le _ _) le, lt⟩)

/-- Splits the huge page the cursor stands at and goes down into it. -/
theorem splitCur_ok (h : Ready C c) {pa : Nat} {prop : P} (frame : c.entry C = .frame pa prop) (above : 1 < c.level) :
    c.splitCur C = .ok (c.setEntry C (.splitNode C c.level pa prop)) ∧
      Ready C (c.setEntry C (.splitNode C c.level pa prop)).pushLevel ∧
      Walked C c (c.setEntry C (.splitNode C c.level pa prop)).pushLevel := by
  have split : (c.node C).splitIfMappedHuge C c.level (c.curIdx C) =
      some ((c.node C).replace (c.curIdx C) (.splitNode C c.level pa prop)) :=
    Child.splitIfMappedHuge_eq frame above
  have valid := h.valid_entry
  rw [frame] at valid
  have ready := h.setEntry (Child.valid_splitNode pa prop above valid.2)
  have mapped : ∀ p, C.SameSlot c.level p c.va → pages C c.root p = some (pa + p % C.pageSize c.level, prop) := by
    intro p same
    rw [h.pages_slot same, frame]
    rfl
  have pages : ∀ p, pages C (c.setEntry C (.splitNode C c.level pa prop)).root p = pages C c.root p := by
    intro p
    rw [pages_setEntry h]
    split
    · next same =>
      rw [Child.view_splitNode above, mapped p same]
      rfl
    · rfl
  refine ⟨?_, (ready.pushLevel ?_).1, ⟨⟨rfl, rfl, rfl, pages⟩, ?_⟩⟩
  · rw [splitCur, split]
    rfl
  · rw [entry_setEntry h, Child.splitNode_eq]
    rfl
  intro lo hi full p level managed pos lt le ge table
  by_cases same : C.SameSlot c.level p c.va
  · refine ⟨p, .refl _ _, ?_⟩
    change PageTable.pages C (c.setEntry C (.splitNode C c.level pa prop)).root p ≠ none
    rw [pages, mapped p same]
    exact Option.some_ne_none _
  · have old : (c.root.nodeAt C p C.nrLevels (C.nrLevels - level)).isTable = true := by
      rw [← table]
      exact (Child.isTable_nodeAt_setNodeAt (C.nrLevels - level) (.splitNode C c.level pa prop) h.level_pos h.depth
        h.table (managed.sameSlot h.managed_va) same).symm
    obtain ⟨q, near, some⟩ := full p level managed pos lt le ge old
    exact ⟨q, near, (pages q).symm ▸ some⟩

/-- The current slot begins at the cursor and ends by `stop`. -/
def Fits (C : PagingConsts) (c : Cursor P) (stop : Nat) : Prop :=
  C.slotStart c.level c.va = c.va ∧ C.slotStop c.level c.va ≤ stop

variable {stop fuel : Nat}

theorem fits_eq_true : c.fits (C.slotStart c.level c.va, C.slotStop c.level c.va) stop = true ↔ c.Fits C stop := by
  simp only [fits, Fits, and_eq_true, beq_iff_eq, decide_eq_true_eq, eq_comm (a := c.va)]

def Found (C : PagingConsts) (c : Cursor P) (stop : Nat) (findUnmapSubtree splitHuge : Bool) : Prop :=
  (∃ pa prop, c.entry C = .frame pa prop ∧ (c.Fits C stop ∨ splitHuge = false)) ∨
    ((c.entry C).isTable = true ∧ findUnmapSubtree = true ∧ c.Fits C stop ∧
      (C.topLevelCanUnmap = true ∨ c.level ≠ C.nrLevels))

theorem rounds_forward {va' level' : Nat} (lt : va < va') (before : va < stop) (le : level' ≤ C.nrLevels) :
    rounds C va' stop level' < rounds C va stop level := by
  have fewer : stop - va' + 1 ≤ stop - va := by omega
  have product := mul_le_mul_right (C.nrLevels + 1) fewer
  rw [Nat.add_mul] at product
  unfold rounds
  omega

section Loop

variable {findUnmapSubtree splitHuge : Bool}

/-- How a search from `c` ends. -/
structure Searched (C : PagingConsts) (stop : Nat) (findUnmapSubtree splitHuge : Bool) (c : Cursor P)
    (found : Option Nat) (c' : Cursor P) : Prop where
  inv : Inv C c'
  kept : Walked C c c'
  le : c.va ≤ c'.va
  skipped : ∀ p, c.va ≤ p → p < c'.va → PageTable.pages C c.root p = none
  result : found = none ∧ stop ≤ c'.va ∨
    found = some c'.va ∧ c'.va < stop ∧ c'.Found C stop findUnmapSubtree splitHuge

variable {found : Option Nat}

theorem Searched.stay (inv : Inv C c)
    (result : found = none ∧ stop ≤ c.va ∨ found = some c.va ∧ c.va < stop ∧
    c.Found C stop findUnmapSubtree splitHuge) :
    Searched C stop findUnmapSubtree splitHuge c found c :=
  ⟨inv, .of_root rfl rfl rfl rfl, le_rfl, fun _ le lt => absurd lt (not_lt.mpr le), result⟩

/-- A search that first gets from `c` to `mid`. -/
theorem Searched.after {mid c' : Cursor P} (kept : Walked C c mid) (le : c.va ≤ mid.va)
    (skipped : ∀ p, c.va ≤ p → p < mid.va → pages C c.root p = none)
    (h : Searched C stop findUnmapSubtree splitHuge mid found c') :
    Searched C stop findUnmapSubtree splitHuge c found c' where
  inv := h.inv
  kept := kept.trans h.kept
  le := le_trans le h.le
  skipped p ge lt := by
    rcases lt_or_ge p mid.va with first | later
    · exact skipped p ge first
    · rw [← kept.pages]
      exact h.skipped p later lt
  result := h.result

/-- At level 1 every slot fits. -/
theorem fits_of_level_one (h : Ready C c) (before : c.va < stop) (one : ¬ 1 < c.level) : c.Fits C stop := by
  have level : c.level = 1 := le_antisymm (not_lt.mp one) h.level_pos
  have size : C.pageSize 1 = 1 := rfl
  rw [Fits, slotStop, slotStart, level, size]
  omega

theorem findLoop_ok {fuel : Nat} (inv : Inv C c) (reach : c.Reach C) (within : stop ≤ c.stop)
    (enough : rounds C c.va stop c.level ≤ fuel) :
    ∃ found c', findLoop C stop findUnmapSubtree splitHuge fuel c = .ok (found, c') ∧
      Searched C stop findUnmapSubtree splitHuge c found c' := by
  induction fuel generalizing c with
  | zero => exact absurd enough (not_le.mpr (succ_pos _))
  | succ fuel ih =>
    rw [findLoop]
    by_cases done : stop ≤ c.va
    · rw [if_pos done]
      exact ⟨none, c, rfl, .stay inv (.inl ⟨rfl, done⟩)⟩
    have before : c.va < stop := not_le.mp done
    have h : Ready C c := ⟨inv, lt_of_lt_of_le before within⟩
    rw [if_neg done, curVaRange_ok h reach, ok_bind, h.curEntry, ok_bind]
    -- A slot without pages is skipped.
    have skip : (∀ p, C.SameSlot c.level p c.va → pages C c.root p = none) →
        ∃ found c', (c.moveForward C >>= findLoop C stop findUnmapSubtree splitHuge fuel) = .ok (found, c') ∧
          Searched C stop findUnmapSubtree splitHuge c found c' := by
      intro unmapped
      obtain ⟨mid, eq, inv', kept, lt, skipped⟩ := moveForward_skip h reach unmapped
      have fewer : rounds C mid.va stop mid.level < rounds C c.va stop c.level :=
        rounds_forward lt before (le_trans inv'.level_le inv'.guard_le)
      obtain ⟨found, c', eq', searched⟩ := ih inv' (kept.reach reach) (kept.stop ▸ within) (by omega)
      rw [eq]
      exact ⟨found, c', eq', searched.after kept (le_of_lt lt) skipped⟩
    -- Going down a level stays at the same page.
    have down : ∀ mid : Cursor P, Ready C mid.pushLevel → Walked C c mid.pushLevel → mid.va = c.va →
        mid.level = c.level → 2 ≤ c.level →
        ∃ found c', findLoop C stop findUnmapSubtree splitHuge fuel mid.pushLevel = .ok (found, c') ∧
          Searched C stop findUnmapSubtree splitHuge c found c' := by
      intro mid ready kept va level two
      have fewer : rounds C mid.pushLevel.va stop mid.pushLevel.level < rounds C c.va stop c.level := by
        change rounds C mid.va stop (mid.level - 1) < _
        unfold rounds
        rw [va]
        omega
      obtain ⟨found, c', eq', searched⟩ := ih ready.toInv (kept.reach reach) (kept.stop ▸ within) (by omega)
      refine ⟨found, c', eq', searched.after kept (le_of_eq va.symm) ?_⟩
      intro p le lt
      exact absurd (va ▸ lt) (not_lt.mpr le)
    cases entry : c.entry C with
    | none =>
      refine skip fun p same => ?_
      rw [h.pages_slot same, entry]
      rfl
    | pageTable nrChildren children =>
      have table : (c.entry C).isTable = true := by rw [entry]; rfl
      simp only []
      split
      · next found =>
        rw [and_eq_true, and_eq_true, fits_eq_true, or_eq_true, bne_iff_ne] at found
        exact ⟨_, c, rfl, .stay inv (.inr ⟨rfl, before, .inr ⟨table, found.1.1, found.1.2, found.2⟩⟩)⟩
      split
      · exact down c (h.pushLevel table).1 (.of_root rfl rfl rfl rfl) rfl rfl (h.pushLevel table).2
      · next empty =>
        refine skip fun p same => ?_
        rw [h.pages_slot same]
        refine Child.view_empty h.valid_entry h.level_le_levels table ?_
        rw [entry]
        exact Decidable.not_not.mp empty
    | frame pa prop =>
      simp only []
      split
      · next found =>
        rw [or_eq_true, fits_eq_true, not_eq_true'] at found
        exact ⟨_, c, rfl, .stay inv (.inr ⟨rfl, before, .inl ⟨pa, prop, entry, found⟩⟩)⟩
      · next missed =>
        rw [or_eq_true, fits_eq_true] at missed
        have above : 1 < c.level := by
          by_contra one
          exact missed (.inl (fits_of_level_one h before one))
        obtain ⟨eq, ready, kept⟩ := splitCur_ok h entry above
        rw [eq]
        exact down _ ready kept rfl rfl above

theorem findNextImpl_ok {len : Nat} (findUnmapSubtree splitHuge : Bool) (inv : Inv C c)
    (reach : c.Reach C) (within : c.va + len ≤ c.stop) :
    ∃ found c', c.findNextImpl C len findUnmapSubtree splitHuge = .ok (found, c') ∧
      Searched C (c.va + len) findUnmapSubtree splitHuge c found c' := by
  have stop : c.stop ≤ C.slotStop c.guardLevel (c.stop - 1) := by
    have := lt_slotStop (C := C) c.guardLevel (c.stop - 1)
    omega
  have fits : c.va + len < C.vaLimit := lt_of_le_of_lt (le_trans within stop) reach
  rw [findNextImpl, checkedAdd, if_pos fits, ok_bind, if_neg (not_lt.mpr within)]
  exact findLoop_ok inv reach within le_rfl

end Loop

/-! ### Going up and down -/

theorem descend_ok (h : Ready C c) (enough : c.level ≤ fuel) :
    ∃ c', c.descend C fuel = .ok (c'.entry C, c') ∧ Ready C c' ∧ c'.va = c.va ∧ Kept C c c' ∧
      (c'.entry C).isTable = false := by
  induction fuel generalizing c with
  | zero => exact absurd h.level_pos (by omega)
  | succ fuel ih =>
    rw [descend, h.curEntry, ok_bind]
    split
    · next table =>
      have down : Kept C c c.pushLevel := .of_root rfl rfl rfl rfl
      obtain ⟨ready, two⟩ := h.pushLevel table
      obtain ⟨c', eq, ready', va, kept, leaf⟩ := ih ready (by change c.level - 1 ≤ fuel; omega)
      exact ⟨c', eq, ready', va, down.trans kept, leaf⟩
    · next leaf => exact ⟨c, rfl, h, rfl, .of_root rfl rfl rfl rfl, eq_false_iff.mpr leaf⟩

/-- A new node under an entry that is not there. -/
theorem alloc_ok (h : Ready C c) (none : c.entry C = .none) (above : 1 < c.level) :
    Ready C (c.setEntry C .alloc).pushLevel ∧ Kept C c (c.setEntry C .alloc).pushLevel := by
  have ready := h.setEntry (Child.valid_alloc above)
  refine ⟨(ready.pushLevel ?_).1, ⟨rfl, rfl, rfl, ?_⟩⟩
  · rw [entry_setEntry h]
    rfl
  intro p
  refine (pages_setEntry h _ p).trans ?_
  split
  · next same =>
    rw [h.pages_slot same, none]
    rfl
  · rfl

theorem stepDown_ok (h : Ready C c) (above : 1 < c.level) :
    ∃ c', c.stepDown C = .ok c' ∧ Ready C c' ∧ Kept C c c' ∧ c'.va = c.va ∧ c'.level = c.level - 1 := by
  rw [stepDown, h.curEntry]
  cases entry : c.entry C with
  | none =>
    obtain ⟨ready, kept⟩ := alloc_ok h entry above
    refine ⟨_, ?_, ready, kept, rfl, rfl⟩
    rw [Child.allocIfNone_eq h.table entry above]
    rfl
  | frame pa prop =>
    obtain ⟨-, ready, kept⟩ := splitCur_ok h entry above
    refine ⟨_, ?_, ready, kept.toKept, rfl, rfl⟩
    rw [Child.splitIfMappedHuge_eq entry above]
    rfl
  | pageTable nrChildren children =>
    have table : (c.entry C).isTable = true := by rw [entry]; rfl
    exact ⟨c.pushLevel, rfl, (h.pushLevel table).1, .of_root rfl rfl rfl rfl, rfl, rfl⟩

theorem adjust_ok (fuel : Nat) (h : Ready C c) (pos : 1 ≤ level) (le : level ≤ c.guardLevel)
    (enough : (c.level - level) + (level - c.level) < fuel) :
    ∃ c', adjust C level fuel c = .ok c' ∧ Ready C c' ∧ Kept C c c' ∧ c'.va = c.va ∧ c'.level = level := by
  induction fuel generalizing c with
  | zero => exact absurd enough (not_lt_zero _)
  | succ fuel ih =>
    rw [adjust]
    split
    · next eq => exact ⟨c, rfl, h, .of_root rfl rfl rfl rfl, rfl, eq⟩
    · next ne =>
      split
      · next low =>
        obtain ⟨eq, inv⟩ := h.toInv.popLevel h.isInside (lt_of_lt_of_le low le)
        obtain ⟨c', eq', ready', kept, rest⟩ := ih ⟨inv, h.before⟩ le
          (by change c.level + 1 - level + (level - (c.level + 1)) < fuel; omega)
        have up : Kept C c { c with level := c.level + 1 } := .of_root rfl rfl rfl rfl
        rw [eq]
        exact ⟨c', eq', ready', up.trans kept, rest⟩
      · next high =>
        obtain ⟨mid, eq, ready, kept, va, down⟩ := stepDown_ok h (by omega)
        obtain ⟨c', eq', ready', kept', va', level'⟩ := ih ready (kept.guardLevel ▸ le) (by rw [down]; omega)
        rw [eq]
        exact ⟨c', eq', ready', kept.trans kept', va'.trans va, level'⟩

/-- The node that guards the cursor does not reach the end of the address space. -/
def NodeReach (C : PagingConsts) (c : Cursor P) : Prop := C.slotStop (c.guardLevel + 1) c.start < C.vaLimit

theorem jumpLoop_succ (fits : C.slotStop (c.level + 1) c.va < C.vaLimit) : jumpLoop C va (fuel + 1) c =
      if C.SameSlot (c.level + 1) va c.va then .ok { c with va } else c.popLevel >>= jumpLoop C va fuel := by
  have fits : c.va / C.pageSize (c.level + 1) * C.pageSize (c.level + 1) + C.pageSize (c.level + 1) < C.vaLimit := fits
  rw [jumpLoop, checkedAdd, if_pos fits]
  exact if_congr sameSlot_iff_between.symm rfl rfl

theorem jumpLoop_ok (fuel : Nat) (inv : Inv C c) (inside : c.Inside C) (reach : c.NodeReach C) (start : c.start ≤ va)
    (stop : va < c.stop) (enough : c.guardLevel - c.level < fuel) :
    ∃ level, jumpLoop C va fuel c = .ok { c with level, va } ∧ Inv C { c with level, va } := by
  induction fuel generalizing c with
  | zero => exact absurd enough (not_lt_zero _)
  | succ fuel ih =>
    have target : C.SameSlot (c.guardLevel + 1) va c.start := inv.inside.between start (le_sub_one_of_lt stop)
    have fits : C.slotStop (c.level + 1) c.va < C.vaLimit := by
      refine lt_of_le_of_lt (slotStop_mono (succ_le_succ inv.level_le)) ?_
      rw [slotStop, slotStart, show c.va / _ = c.start / _ from inside]
      exact reach
    rw [jumpLoop_succ fits]
    split
    · next same =>
      refine ⟨c.level, rfl, { inv with start_le := start, placed := ?_, outside := absurd target }⟩
      intro _
      exact inv.table_of_same inside le_rfl inv.level_le same
    · next other =>
      have below : c.level < c.guardLevel := by
        refine lt_of_le_of_ne inv.level_le fun top => other ?_
        rw [top]
        exact target.trans inside.symm
      obtain ⟨popped, inv'⟩ := inv.popLevel inside below
      rw [popped]
      exact ih inv' inside reach start stop (by change c.guardLevel - (c.level + 1) < fuel; omega)

end Cursor

end OmegaOsx.PageTable
