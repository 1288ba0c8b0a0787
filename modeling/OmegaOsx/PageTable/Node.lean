import OmegaOsx.Lib.Radix
import OmegaOsx.MlsDisk.Basic

/-!
# Page table nodes

The tree of a page table, as `page_table/node` keeps it. Addresses and lengths are counted in base
pages: all of them are asserted to be aligned to one. The slot of a frame gives its level. Locks,
reference counts and the marks of detached nodes are left out.

`view` is what the tree maps a page to. `Valid` says that a node counts its valid entries.
-/

namespace OmegaOsx.PageTable

open Radix List Function

/-- A call returns or panics. -/
abbrev Res (α : Type) := Except String α

/-- `PagingConstsTrait` and `PageTableConfig`. -/
structure PagingConsts where
  /-- `nr_subpage_per_huge`. -/
  nrSubpage : Nat
  nrLevels : Nat
  highestTranslationLevel : Nat
  topLevelCanUnmap : Bool
  /-- `TOP_LEVEL_INDEX_RANGE`. -/
  topStart : Nat
  topStop : Nat
  /-- The bits above the address width, which are set if addresses are sign-extended. -/
  vaBase : Nat
  /-- The first page whose address does not fit a `Vaddr`. -/
  vaLimit : Nat
  two_le : 2 ≤ nrSubpage
  levels_pos : 1 ≤ nrLevels
  highest_le : highestTranslationLevel ≤ nrLevels
  top : topStart < topStop ∧ topStop ≤ nrSubpage
  base : nrSubpage ^ nrLevels ∣ vaBase
  fits : vaBase + topStop * nrSubpage ^ (nrLevels - 1) ≤ vaLimit

variable {level : Nat} {va : Nat}

namespace PagingConsts

variable (C : PagingConsts)

/-- `page_size`, in base pages. -/
def pageSize (level : Nat) : Nat := C.nrSubpage ^ (level - 1)

/-- The index of an address in a node of a level. -/
def pteIndex (va level : Nat) : Nat := Radix.digit C.nrSubpage (level - 1) va

/-- `vaddr_range`: the first managed page and the first one after them. -/
def vaddrStart : Nat := C.vaBase + C.topStart * C.pageSize C.nrLevels

def vaddrStop : Nat := C.vaBase + C.topStop * C.pageSize C.nrLevels

def isValidRange (start stop : Nat) : Res Bool :=
  if start = 0 ∧ stop = 0 then .ok true
  else if C.vaddrStart ≤ start then
    if stop = 0 then .error "attempt to subtract with overflow" else .ok (stop ≤ C.vaddrStop)
  else .ok false

/-- The entries that a node of a level has for managed pages: those of the root are the range at the
top level. -/
def idxStart (level : Nat) : Nat := if level = C.nrLevels then C.topStart else 0

def idxStop (level : Nat) : Nat := if level = C.nrLevels then C.topStop else C.nrSubpage

theorem nr_pos : 0 < C.nrSubpage := lt_of_lt_of_le (Nat.succ_pos 1) C.two_le

theorem pageSize_pos (level : Nat) : 0 < C.pageSize level := Nat.pow_pos C.nr_pos

theorem pageSize_succ (pos : 1 ≤ level) : C.pageSize (level + 1) = C.pageSize level * C.nrSubpage := by
  obtain ⟨k, rfl⟩ := Nat.exists_eq_add_of_le' pos
  exact pow_succ ..

theorem pteIndex_lt (va level : Nat) : C.pteIndex va level < C.nrSubpage := digit_lt C.nr_pos _ _

/-- A page the page table manages. -/
def Managed (va : Nat) : Prop := C.vaddrStart ≤ va ∧ va < C.vaddrStop

instance decidableManaged (va : Nat) : Decidable (C.Managed va) := inferInstanceAs (Decidable (_ ∧ _))

/-- Two pages lie in the same slot of a level. -/
def SameSlot (level va va' : Nat) : Prop := va / C.pageSize level = va' / C.pageSize level

instance decidableSameSlot (level va va' : Nat) : Decidable (C.SameSlot level va va') :=
  inferInstanceAs (Decidable (_ = _))

variable {C}

theorem sameSlot_iff {va' : Nat} (pos : 1 ≤ level) :
    C.SameSlot level va va' ↔ C.SameSlot (level + 1) va va' ∧ C.pteIndex va level = C.pteIndex va' level := by
  obtain ⟨k, rfl⟩ := Nat.exists_eq_add_of_le' pos
  exact div_pow_eq_iff

namespace SameSlot

variable {level' va' va'' : Nat}

theorem refl (level va : Nat) : C.SameSlot level va va := Eq.refl _

section

variable (h : C.SameSlot level va va')

include h

theorem symm : C.SameSlot level va' va := Eq.symm h

theorem trans (h' : C.SameSlot level va' va'') : C.SameSlot level va va'' := Eq.trans h h'

theorem mono (le : level ≤ level') : C.SameSlot level' va va' := div_pow_mono (Nat.sub_le_sub_right le 1) h

theorem pteIndex (le : level ≤ level') : C.pteIndex va level' = C.pteIndex va' level' :=
  digit_congr (Nat.sub_le_sub_right le 1) h

end

theorem between (h : C.SameSlot level va va'') (le : va ≤ va') (le' : va' ≤ va'') : C.SameSlot level va' va :=
  div_pow_eq_of_between le le' h

end SameSlot

/-- The managed pages share the slot of the root. -/
theorem Managed.div (h : C.Managed va) :
    va / C.pageSize C.nrLevels = C.vaBase / C.pageSize C.nrLevels + C.pteIndex va C.nrLevels ∧
      C.topStart ≤ C.pteIndex va C.nrLevels ∧ C.pteIndex va C.nrLevels < C.topStop := by
  obtain ⟨k, base⟩ := C.base
  have pos := C.pageSize_pos C.nrLevels
  have whole : C.vaBase = C.pageSize C.nrLevels * (C.nrSubpage * k) := by
    rw [base, ← mul_assoc, ← C.pageSize_succ C.levels_pos]
    rfl
  obtain ⟨le, lt⟩ := h
  rw [vaddrStart, whole, mul_comm C.topStart, ← Nat.mul_add] at le
  rw [vaddrStop, whole, mul_comm C.topStop, ← Nat.mul_add] at lt
  have lower : C.nrSubpage * k + C.topStart ≤ va / C.pageSize C.nrLevels := by
    rw [Nat.le_div_iff_mul_le pos, mul_comm]
    exact le
  have upper : va / C.pageSize C.nrLevels < C.nrSubpage * k + C.topStop := by
    rw [Nat.div_lt_iff_lt_mul pos, mul_comm]
    exact lt
  have top := C.top
  have index : C.pteIndex va C.nrLevels = va / C.pageSize C.nrLevels - C.nrSubpage * k := by
    obtain ⟨i, eq⟩ := Nat.exists_eq_add_of_le (le_trans (Nat.le_add_right _ _) lower)
    have small : i < C.nrSubpage := by omega
    change va / C.pageSize C.nrLevels % C.nrSubpage = _
    rw [eq, Nat.mul_add_mod, Nat.mod_eq_of_lt small, Nat.add_sub_cancel_left]
  rw [whole, Nat.mul_div_cancel_left _ pos]
  omega

theorem Managed.idx (h : C.Managed va) :
    C.idxStart level ≤ C.pteIndex va level ∧ C.pteIndex va level < C.idxStop level := by
  unfold idxStart idxStop
  split
  · next top => exact top ▸ h.div.2
  · exact ⟨Nat.zero_le _, C.pteIndex_lt _ _⟩

theorem Managed.sameSlot {va' : Nat} (h : C.Managed va) (h' : C.Managed va') : C.SameSlot (C.nrLevels + 1) va va' := by
  have block : ∀ {p}, C.Managed p → p / C.pageSize (C.nrLevels + 1) = C.vaBase / C.pageSize (C.nrLevels + 1) := by
    intro p hp
    obtain ⟨k, base⟩ := C.base
    have split := hp.div.1
    rw [C.pageSize_succ C.levels_pos, ← Nat.div_div_eq_div_mul, ← Nat.div_div_eq_div_mul, split]
    have whole : C.vaBase / C.pageSize C.nrLevels = C.nrSubpage * k := by
      rw [base, show C.nrSubpage ^ C.nrLevels = C.pageSize C.nrLevels * C.nrSubpage from
        C.pageSize_succ C.levels_pos, mul_assoc, Nat.mul_div_cancel_left _ (C.pageSize_pos _)]
    rw [whole, Nat.mul_add_div C.nr_pos, Nat.div_eq_of_lt (C.pteIndex_lt _ _), Nat.mul_div_cancel_left _ C.nr_pos]
    rfl
  exact (block h).trans (block h').symm

end PagingConsts

/-- `Child`: what an entry holds. A node has its number of valid entries and the entries. -/
inductive Child (P : Type)
  | none
  | frame (pa : Nat) (prop : P)
  | pageTable (nrChildren : Nat) (children : Nat → Child P)

variable {idx : Nat}

namespace Child

variable {P : Type}

def isNone : Child P → Bool
  | .none => true
  | _ => false

def isTable : Child P → Bool
  | .pageTable _ _ => true
  | _ => false

def child : Child P → Nat → Child P
  | .pageTable _ children, idx => children idx
  | _, _ => .none

/-- `nr_children` of a node. -/
def nrChildren : Child P → Nat
  | .pageTable nrChildren _ => nrChildren
  | _ => 0

/-- `PageTableNode::alloc`. -/
def alloc : Child P := .pageTable 0 fun _ => .none

def writePte (node : Child P) (idx : Nat) (pte : Child P) : Child P :=
  match node with
  | .pageTable nrChildren children => .pageTable nrChildren (Function.update children idx pte)
  | node => node

/-- `Entry::replace`, of the entry `idx` of a node. -/
def replace (node : Child P) (idx : Nat) (newChild : Child P) : Child P :=
  match node with
  | .pageTable nrChildren children =>
    .pageTable
      (if (children idx).isNone && !newChild.isNone then nrChildren + 1
        else if !(children idx).isNone && newChild.isNone then nrChildren - 1
        else nrChildren)
      (Function.update children idx newChild)
  | node => node

/-- `Entry::protect`, of an entry that is a page. -/
def protect (node : Child P) (idx : Nat) (op : P → P) : Child P :=
  match node.child idx with
  | .frame pa prop => node.writePte idx (.frame pa (op prop))
  | _ => node

/-- `Entry::alloc_if_none`, in a node of a level. -/
def allocIfNone (level : Nat) (node : Child P) (idx : Nat) : Option (Child P) :=
  match node with
  | .pageTable nrChildren children =>
    if (children idx).isNone ∧ 1 < level then
      some (.pageTable (nrChildren + 1) (Function.update children idx alloc))
    else Option.none
  | _ => Option.none

variable (C : PagingConsts)

/-- The node that a huge page of a level is split into. -/
def splitNode (level pa : Nat) (prop : P) : Child P :=
  (List.range C.nrSubpage).foldl
    (fun node i => node.replace i (.frame (pa + i * C.pageSize (level - 1)) prop)) alloc

/-- `Entry::split_if_mapped_huge`. -/
def splitIfMappedHuge (level : Nat) (node : Child P) (idx : Nat) : Option (Child P) :=
  match node.child idx with
  | .frame pa prop => if 1 < level then some (node.writePte idx (splitNode C level pa prop)) else Option.none
  | _ => Option.none

/-- The frames that `dfs_mark_stray_and_unlock` counts in a node of a level. -/
def numFrames : Child P → Nat → Nat
  | .pageTable nrChildren children, level =>
    if level = 1 then nrChildren
    else ((List.range C.nrSubpage).map fun i => numFrames (children i) (level - 1)).sum
  | _, _ => 0

/-- What a page is mapped to by what a slot of a level holds. -/
def view (va : Nat) : Child P → Nat → Option (Nat × P)
  | .none, _ => Option.none
  | .frame pa prop, level => some (pa + va % C.pageSize level, prop)
  | .pageTable _ children, level => view va (children (C.pteIndex va (level - 1))) (level - 1)

/-- In a slot of a level, nodes count their valid entries and stand above level 1; pages have a level that is
translated. -/
def Valid : Child P → Nat → Prop
  | .none, _ => True
  | .frame _ _, level => 1 ≤ level ∧ level ≤ C.highestTranslationLevel
  | .pageTable nrChildren children, level =>
    2 ≤ level ∧
      nrChildren = Radix.occupied (! ·.isNone) children (C.idxStart (level - 1))
        (C.idxStop (level - 1) - C.idxStart (level - 1)) ∧
      ∀ i, C.idxStart (level - 1) ≤ i → i < C.idxStop (level - 1) → Valid (children i) (level - 1)

variable {C} {t x : Child P} {pa : Nat} {prop : P}

theorem isTable_iff : t.isTable = true ↔ ∃ n children, t = .pageTable n children := by
  cases t <;> simp [isTable]

theorem isNone_of_isTable (h : t.isTable = true) : t.isNone = false := by
  obtain ⟨n, children, rfl⟩ := isTable_iff.mp h
  rfl

theorem isTable_of_child (h : (t.child idx).isTable = true) : t.isTable = true := by
  cases t with
  | none => cases h
  | frame => cases h
  | pageTable => rfl

@[simp] theorem isTable_replace : (t.replace idx x).isTable = t.isTable := by
  cases t <;> rfl

@[simp] theorem isTable_writePte : (t.writePte idx x).isTable = t.isTable := by
  cases t <;> rfl

theorem child_replace {i : Nat} (h : t.isTable = true) :
    (t.replace idx x).child i = if i = idx then x else t.child i := by
  obtain ⟨n, children, rfl⟩ := isTable_iff.mp h
  exact update_apply ..

/-- Where the old and the new entry are both valid, the count stays. -/
theorem writePte_eq (old : (t.child idx).isNone = false) (new : x.isNone = false) :
    t.writePte idx x = t.replace idx x := by
  cases t with
  | none => rfl
  | frame => rfl
  | pageTable n children =>
    change (children idx).isNone = false at old
    simp [writePte, replace, old, new]

theorem protect_eq (op : P → P) (h : t.child idx = .frame pa prop) :
    t.protect idx op = t.replace idx (.frame pa (op prop)) := by
  unfold protect
  rw [h]
  exact writePte_eq (by rw [h]; rfl) rfl

theorem allocIfNone_eq (table : t.isTable = true) (h : t.child idx = .none) (above : 1 < level) :
    t.allocIfNone level idx = some (t.replace idx alloc) := by
  obtain ⟨n, children, rfl⟩ := isTable_iff.mp table
  change children idx = .none at h
  simp [allocIfNone, replace, h, above, isNone, alloc]

/-- The loop of a split, once it has written the first `m` entries. -/
theorem foldl_replace (f : Nat → Nat) (prop : P) (m : Nat) :
    (range m).foldl (fun node i => node.replace i (.frame (f i) prop)) alloc =
      .pageTable m fun i => if i < m then .frame (f i) prop else .none := by
  induction m with
  | zero => simp [alloc]
  | succ m ih =>
    rw [range_succ, foldl_append, ih]
    simp only [foldl_cons, foldl_nil, replace, lt_irrefl, if_false, isNone, Bool.not_false, Bool.and_true]
    congr 1
    funext i
    grind

theorem splitNode_eq (level pa : Nat) (prop : P) : splitNode C level pa prop = .pageTable C.nrSubpage fun i =>
      if i < C.nrSubpage then .frame (pa + i * C.pageSize (level - 1)) prop else .none :=
  foldl_replace _ prop _

theorem splitIfMappedHuge_eq (h : t.child idx = .frame pa prop) (above : 1 < level) :
    t.splitIfMappedHuge C level idx = some (t.replace idx (splitNode C level pa prop)) := by
  unfold splitIfMappedHuge
  rw [h]
  change (if 1 < level then some (t.writePte idx (splitNode C level pa prop)) else Option.none) = _
  rw [if_pos above, writePte_eq (by rw [h]; rfl) (by rw [splitNode_eq]; rfl)]

/-! ### What a changed node maps -/

theorem view_table (h : t.isTable = true) :
    t.view C va (level + 1) = (t.child (C.pteIndex va level)).view C va level := by
  obtain ⟨n, children, rfl⟩ := isTable_iff.mp h
  rfl

theorem view_replace (h : t.isTable = true) : (t.replace idx x).view C va (level + 1) =
      if C.pteIndex va level = idx then x.view C va level else t.view C va (level + 1) := by
  rw [view_table (by rwa [isTable_replace]), child_replace h]
  split
  · rfl
  · rw [view_table h]

/-- A split huge page maps what it did. -/
theorem view_splitNode (above : 1 < level) :
    (splitNode C level pa prop).view C va level = (frame pa prop).view C va level := by
  obtain ⟨k, rfl⟩ := Nat.exists_eq_add_of_lt above
  have small : C.pteIndex va (1 + k) < C.nrSubpage := C.pteIndex_lt _ _
  have parts : va % C.pageSize (1 + k + 1) = va % C.pageSize (1 + k) + C.pageSize (1 + k) * C.pteIndex va (1 + k) := by
    rw [add_comm 1 k]
    exact Nat.mod_pow_succ
  rw [splitNode_eq, view_table rfl]
  simp only [child, small, if_true, view, Nat.add_sub_cancel, Option.some.injEq, Prod.mk.injEq, and_true]
  rw [mul_comm (C.pteIndex _ _)]
  omega

/-! ### Counts -/

theorem Valid.child {i : Nat} (h : t.Valid C (level + 1)) (le : C.idxStart level ≤ i)
    (lt : i < C.idxStop level) : (t.child i).Valid C level := by
  cases t with
  | none => trivial
  | frame => trivial
  | pageTable n children => exact h.2.2 i le lt

theorem Valid.replace (h : t.Valid C (level + 1)) (hx : x.Valid C level) (le : C.idxStart level ≤ idx)
    (lt : idx < C.idxStop level) : (t.replace idx x).Valid C (level + 1) := by
  cases t with
  | none => trivial
  | frame => exact h
  | pageTable n children =>
    obtain ⟨above, count, each⟩ := h
    refine ⟨above, ?_, ?_⟩
    · have change_ := @occupied_update idx (C.idxStart level) (C.idxStop level - C.idxStart level) _
        (fun c : Child P => !c.isNone) children x le (by omega)
      cases old : (children idx).isNone <;> cases new : x.isNone <;> (simp_all; try omega)
    · intro i le' lt'
      rw [update_apply]
      split
      · exact hx
      · exact each i le' lt'

theorem valid_alloc (above : 2 ≤ level) : (alloc : Child P).Valid C level :=
  ⟨above, by simp [occupied, isNone], fun _ _ _ => trivial⟩

theorem valid_splitNode (pa : Nat) (prop : P) (above : 1 < level) (le : level ≤ C.highestTranslationLevel) :
    (splitNode C level pa prop).Valid C level := by
  have below : level - 1 ≠ C.nrLevels := by
    have := C.highest_le
    omega
  rw [splitNode_eq]
  refine ⟨above, ?_, ?_⟩
  · rw [PagingConsts.idxStart, PagingConsts.idxStop, if_neg below, if_neg below]
    refine occupied_eq_count fun i _ lt => ?_
    have lt : i < C.nrSubpage := by omega
    simp only [lt]
    rfl
  · intro i _ lt
    rw [PagingConsts.idxStop, if_neg below] at lt
    simp only [lt]
    exact ⟨Nat.le_sub_one_of_lt above, le_trans (Nat.sub_le _ _) le⟩

/-- A node without valid entries maps nothing. -/
theorem view_empty {p : Nat} (valid : t.Valid C level) (le : level ≤ C.nrLevels)
    (table : t.isTable = true) (empty : t.nrChildren = 0) : t.view C p level = Option.none := by
  obtain ⟨n, children, rfl⟩ := isTable_iff.mp table
  obtain ⟨above, count, -⟩ := valid
  change n = 0 at empty
  have below : level - 1 ≠ C.nrLevels := by omega
  rw [PagingConsts.idxStart, PagingConsts.idxStop, if_neg below, if_neg below, Nat.sub_zero] at count
  have vacant : (children (C.pteIndex p (level - 1))).isNone = true := by
    by_contra present
    have lt : C.pteIndex p (level - 1) < 0 + C.nrSubpage := by
      rw [zero_add]
      exact C.pteIndex_lt _ _
    have counted := occupied_pos (p := fun c : Child P => !c.isNone) (Nat.zero_le _) lt (by simpa using present)
    omega
  rw [view]
  cases entry : children (C.pteIndex p (level - 1)) with
  | none => rfl
  | frame => simp [entry, isNone] at vacant
  | pageTable => simp [entry, isNone] at vacant

end Child

end OmegaOsx.PageTable
