import OmegaOsx.Lib.Run
import OmegaOsx.PageTable.Walk

/-!
# Page tables are maps from pages

`MapStep` is what the operations of a cursor do to a map from pages to physical pages and properties.
`cursor_refines_pageMap` connects the cursors of the source to it.

Where the code falls short:
1. `jump` takes the node it is in from the current address. At the end of the guarding node this is
   the next node, and the way back to the range panics (`jump_back_panics`).
2. A cursor on exactly one huge page is guarded by the node below it, so `map` cannot go up to the level
   of a huge page.
3. The end of the last slot of the address space is not an address.
4. `take_next` takes out empty nodes too: a fragment has a page only if no node in the range is empty.
-/

namespace OmegaOsx.PageTable

open PagingConsts Nat Option

open MlsDisk (ok_bind)

/-! ### The abstract machine -/

/-- A map with the address and the range of a cursor. -/
@[ext] structure PageMap (P : Type) where
  pages : Nat → Option (Nat × P)
  va : Nat
  start : Nat
  stop : Nat

inductive Op (P : Type)
  | cursor (start stop : Nat)
  | query
  | findNext (len : Nat)
  | jump (va : Nat)
  | map (item : Item P)
  | takeNext (len : Nat)
  | protectNext (len : Nat) (op : P → P)

inductive Out (P : Type)
  | done
  | failed (error : PageTableError)
  | state (range : Nat × Nat) (item : Option (Item P))
  | found (va : Option Nat)
  | frag (frag : Option (PageTableFrag P))
  | changed (range : Option (Nat × Nat))

section Machine

variable {P : Type} (C : PagingConsts) (pages : Nat → Option (Nat × P))

/-- The pages from `start` up to `stop` are what an item maps, or unmapped. -/
def Item.Shows (start stop : Nat) : Option (Item P) → Prop
  | none => ∀ p, start ≤ p → p < stop → pages p = none
  | some item =>
    stop = start + C.pageSize item.level ∧
      ∀ p, start ≤ p → p < stop → pages p = some (item.pa + (p - start), item.prop)

/-- They are what a fragment holds. -/
def PageTableFrag.Shows (pages : Nat → Option (Nat × P)) (start stop : Nat) : Option (PageTableFrag P) → Prop
  | none => Item.Shows C pages start stop none
  | some (.mapped va item) => va = start ∧ Item.Shows C pages start stop (some item)
  | some (.strayPageTable pt va len numFrames) =>
    va = start ∧ stop = start + len ∧ ∃ level, len = C.pageSize (level + 1) ∧
    C.slotStart (level + 1) start = start ∧
      pt.Valid C (level + 1) ∧ numFrames = pt.numFrames C level ∧
      ∀ p, start ≤ p → p < stop → pages p = pt.view C p (level + 1)

/-- The map with the pages from `start` up to `stop` changed. -/
def setPages (start stop : Nat) (new : Nat → Option (Nat × P)) (p : Nat) : Option (Nat × P) :=
  if start ≤ p ∧ p < stop then new p else pages p

inductive MapStep : PageMap P → Op P × Out P → PageMap P → Prop
  | cursor {s : PageMap P} {start stop : Nat} (managed : C.vaddrStart ≤ start ∧ stop ≤ C.vaddrStop) :
      MapStep s (.cursor start stop, .done) ⟨s.pages, start, start, stop⟩
  | cursorInvalid {s : PageMap P} {start stop : Nat} (invalid : ¬ (C.vaddrStart ≤ start ∧ stop ≤ C.vaddrStop)) :
      MapStep s (.cursor start stop, .failed (.invalidVaddrRange start stop)) s
  | query {s : PageMap P} {start stop : Nat} {item : Option (Item P)} (before : s.va < s.stop)
      (here : start ≤ s.va ∧ s.va < stop) (shows_ : Item.Shows C s.pages start stop item) :
      MapStep s (.query, .state (start, stop) item) s
  | queryInvalid {s : PageMap P} (past : s.stop ≤ s.va) : MapStep s (.query, .failed (.invalidVaddr s.va)) s
  | findNext {s : PageMap P} {len va : Nat} (le : s.va ≤ va) (lt : va < s.va + len)
      (first : ∀ p, s.va ≤ p → p < va → s.pages p = none) (mapped : s.pages va ≠ none) :
      MapStep s (.findNext len, .found (some va)) { s with va }
  | findNone {s : PageMap P} {len va : Nat} (past : s.va + len ≤ va)
      (unmapped : ∀ p, s.va ≤ p → p < va → s.pages p = none) :
      MapStep s (.findNext len, .found none) { s with va }
  | jump {s : PageMap P} {va : Nat} (within : s.start ≤ va ∧ va < s.stop) :
      MapStep s (.jump va, .done) { s with va }
  | jumpInvalid {s : PageMap P} {va : Nat} (outside : ¬ (s.start ≤ va ∧ va < s.stop)) :
      MapStep s (.jump va, .failed (.invalidVaddr va)) s
  | map {s : PageMap P} {item : Item P} {frag : Option (PageTableFrag P)}
      (old : PageTableFrag.Shows C s.pages s.va (s.va + C.pageSize item.level) frag) :
      MapStep s (.map item, .frag frag)
        { s with
          pages := setPages s.pages s.va (s.va + C.pageSize item.level) fun p =>
            some (item.pa + (p - s.va), item.prop)
          va := s.va + C.pageSize item.level }
  | takeNext {s : PageMap P} {len start stop : Nat} {frag : PageTableFrag P} (le : s.va ≤ start) (lt : start < stop)
      (within : stop ≤ s.va + len) (first : ∀ p, s.va ≤ p → p < start → s.pages p = none)
      (old : PageTableFrag.Shows C s.pages start stop (some frag)) :
      MapStep s (.takeNext len, .frag (some frag))
        { s with pages := setPages s.pages start stop fun _ => none, va := stop }
  | takeNone {s : PageMap P} {len va : Nat} (past : s.va + len ≤ va)
      (unmapped : ∀ p, s.va ≤ p → p < va → s.pages p = none) :
      MapStep s (.takeNext len, .frag none) { s with va }
  | protectNext {s : PageMap P} {len start stop : Nat} {op : P → P} {item : Item P} (le : s.va ≤ start)
      (lt : start < stop) (within : stop ≤ s.va + len) (first : ∀ p, s.va ≤ p → p < start → s.pages p = none)
      (old : Item.Shows C s.pages start stop (some item)) :
      MapStep s (.protectNext len op, .changed (some (start, stop)))
        { s with
          pages := setPages s.pages start stop fun p => (s.pages p).map fun e => (e.1, op e.2)
          va := stop }
  | protectNone {s : PageMap P} {len va : Nat} {op : P → P} (past : s.va + len ≤ va)
      (unmapped : ∀ p, s.va ≤ p → p < va → s.pages p = none) :
      MapStep s (.protectNext len op, .changed none) { s with va }

end Machine

namespace Cursor

variable {P : Type} (C : PagingConsts) (c : Cursor P)

/-- The map a cursor works on. -/
def pageMap : PageMap P := ⟨pages C c.root, c.va, c.start, c.stop⟩

/-- An operation on a cursor. A new cursor is made once the old one is dropped. -/
def exec : Op P → Res (Out P × Cursor P)
  | .cursor start stop => do
    let opened ← cursorMut C c.root start stop
    match opened with
    | .error e => pure (.failed e, c)
    | .ok c => pure (.done, c)
  | .query => do
    let (result, c) ← c.query C
    match result with
    | .error e => pure (.failed e, c)
    | .ok (range, item) => pure (.state range item, c)
  | .findNext len => do
    let (found, c) ← c.findNext C len
    pure (.found found, c)
  | .jump va => do
    let (result, c) ← c.jump C va
    match result with
    | .error e => pure (.failed e, c)
    | .ok _ => pure (.done, c)
  | .map item => do
    let (frag, c) ← c.map C item
    pure (.frag frag, c)
  | .takeNext len => do
    let (frag, c) ← c.takeNext C len
    pure (.frag frag, c)
  | .protectNext len op => do
    let (range, c) ← c.protectNext C len op
    pure (.changed range, c)

/-- What the operations document as the cause of a panic is not there. -/
def Legal : Op P → Prop
  | .cursor start stop => start < stop
  | .query => True
  | .jump _ => True
  | .findNext len => c.va + len ≤ c.stop
  | .takeNext len => c.va + len ≤ c.stop
  | .protectNext len _ => c.va + len ≤ c.stop
  | .map item =>
    c.va < c.stop ∧ 1 ≤ item.level ∧ item.level ≤ C.highestTranslationLevel ∧
    c.va % C.pageSize item.level = 0 ∧
      c.va + C.pageSize item.level ≤ c.stop

/-- Under this condition the code does what it is for. -/
def Meets : Op P → Prop
  | .cursor _ _ => True
  | .jump va => c.start ≤ va ∧ va < c.stop → c.Inside C ∧ c.NodeReach C
  | .map item =>
    item.level ≤ c.guardLevel ∧ (C.topLevelCanUnmap = true ∨ item.level ≠ C.nrLevels) ∧ c.Reach C
  | _ => c.Reach C

/-- A legal operation that meets the condition and returns. -/
def Step (label : Op P × Out P) (c' : Cursor P) : Prop :=
  Legal C c label.1 ∧ Meets C c label.1 ∧ c.exec C label.1 = .ok (label.2, c')

end Cursor

variable {stop : Nat} {level : Nat}

namespace Cursor

variable {P : Type} {C : PagingConsts} {c : Cursor P}

/-! ### What the operations do to the map -/

/-- An operation returns and does what the machine does. -/
def Refines (C : PagingConsts) (c : Cursor P) (op : Op P) : Prop :=
  ∃ out c', c.exec C op = .ok (out, c') ∧ Inv C c' ∧ MapStep C (c.pageMap C) (op, out) (c'.pageMap C)

variable {va len : Nat}

theorem mod_pageSize {p : Nat} (same : C.SameSlot level p va) : p % C.pageSize level = p - C.slotStart level va := by
  have parts := div_add_mod p (C.pageSize level)
  rw [show p / C.pageSize level = va / C.pageSize level from same, mul_comm] at parts
  rw [slotStart]
  omega

/-- What the current entry shows of the pages of its slot. -/
theorem Ready.shows_frame (h : Ready C c) {pa : Nat} {prop : P} (frame : c.entry C = .frame pa prop) :
    Item.Shows C (pages C c.root) (C.slotStart c.level c.va) (C.slotStop c.level c.va)
      (some ⟨pa, c.level, prop⟩) := by
  refine ⟨rfl, fun p le lt => ?_⟩
  have same := sameSlot_iff_between.mpr ⟨le, lt⟩
  rw [h.pages_slot same, frame, Child.view, mod_pageSize same]

theorem Ready.shows_none (h : Ready C c) (vacant : c.entry C = .none) :
    Item.Shows C (pages C c.root) (C.slotStart c.level c.va) (C.slotStop c.level c.va) none := by
  intro p le lt
  rw [h.pages_slot (sameSlot_iff_between.mpr ⟨le, lt⟩), vacant]
  rfl

variable {c' : Cursor P} {findUnmapSubtree : Bool}

/-- The map of a cursor that only moved. -/
theorem pageMap_searched (kept : Kept C c c') : c'.pageMap C = { c.pageMap C with va := c'.va } := by
  ext1
  · exact funext kept.pages
  · rfl
  · exact kept.start
  · exact kept.stop

theorem pageMap_eq (kept : Kept C c c') (va : c'.va = c.va) : c'.pageMap C = c.pageMap C := by
  rw [pageMap_searched kept, va]
  rfl

theorem refines_query (inv : Inv C c) (reach : c.Reach C) : c.Refines C .query := by
  unfold Refines
  rw [exec]
  by_cases past : c.stop ≤ c.va
  · have result : c.query C = .ok (.error (.invalidVaddr c.va), c) := if_pos past
    rw [result]
    exact ⟨_, c, rfl, inv, .queryInvalid past⟩
  have h : Ready C c := ⟨inv, not_le.mp past⟩
  obtain ⟨c', eq, ready, va, kept, leaf⟩ := descend_ok h le_rfl
  have result : c.query C = .ok (.ok ((C.slotStart c'.level c'.va, C.slotStop c'.level c'.va),
      toItem c'.level (c'.entry C)), c') := by
    rw [query, if_neg past, eq]
    change (c'.curVaRange C >>= _) = _
    rw [curVaRange_ok ready (kept.reach reach)]
    rfl
  rw [result]
  refine ⟨_, c', rfl, ready.toInv, ?_⟩
  rw [← pageMap_eq kept va]
  refine .query ready.before ⟨slotStart_le _ _, lt_slotStop _ _⟩ ?_
  cases entry : c'.entry C with
  | none => exact ready.shows_none entry
  | frame pa prop => exact ready.shows_frame entry
  | pageTable => rw [entry] at leaf; cases leaf

theorem refines_findNext (inv : Inv C c) (within : c.va + len ≤ c.stop) (reach : c.Reach C) :
    c.Refines C (.findNext len) := by
  obtain ⟨found, c', eq, inv', kept, le, skipped, result⟩ := findNextImpl_ok false false inv reach within
  unfold Refines
  rw [exec, findNext, eq]
  refine ⟨_, c', rfl, inv', ?_⟩
  rw [pageMap_searched kept.toKept]
  rcases result with ⟨rfl, past⟩ | ⟨rfl, lt, here⟩
  · exact .findNone past skipped
  refine .findNext le lt skipped ?_
  have ready : Ready C c' := ⟨inv', by rw [kept.stop]; omega⟩
  obtain ⟨pa, prop, frame, -⟩ | ⟨-, no, -⟩ := here
  · change pages C c.root c'.va ≠ none
    rw [← kept.pages, ready.pages_slot (.refl _ _), frame]
    exact some_ne_none _
  · cases no

/-- The fragment that the current entry makes, if its slot begins at the cursor. -/
theorem replaceCurEntry_ok (h : Ready C c) (x : Child P) (aligned : C.slotStart c.level c.va = c.va)
    (unmappable : (c.entry C).isTable = true → C.topLevelCanUnmap = true ∨ c.level ≠ C.nrLevels) :
    ∃ frag, c.replaceCurEntry C x = .ok (frag, c.setEntry C x) ∧
      PageTableFrag.Shows C (pages C c.root) c.va (C.slotStop c.level c.va) frag ∧
      ((c.entry C).isNone = false → frag.isSome = true) := by
  rw [replaceCurEntry, h.curEntry, ok_bind]
  cases entry : c.entry C with
  | none =>
    refine ⟨none, rfl, ?_, fun h => nomatch h⟩
    have shown := h.shows_none entry
    rwa [aligned] at shown
  | frame pa prop =>
    refine ⟨some (.mapped c.va ⟨pa, c.level, prop⟩), rfl, ⟨rfl, ?_⟩, fun _ => rfl⟩
    have shown := h.shows_frame entry
    rwa [aligned] at shown
  | pageTable nrChildren children =>
    have table : (c.entry C).isTable = true := by rw [entry]; rfl
    have valid := h.valid_entry
    rw [entry] at valid
    have allowed : ¬ ((!C.topLevelCanUnmap && c.level == C.nrLevels) = true) := by
      rw [Bool.and_eq_true, Bool.not_eq_true', beq_iff_eq]
      rintro ⟨fixed, top⟩
      rcases unmappable table with can | below
      · rw [fixed] at can
        cases can
      · exact below top
    refine ⟨some (.strayPageTable (.pageTable nrChildren children) c.va (C.pageSize c.level)
      ((Child.pageTable nrChildren children).numFrames C (c.level - 1))), ?_,
      ⟨rfl, ?_, c.level - 1, ?_⟩, fun _ => rfl⟩
    · rw [toFrag, if_neg allowed]
      rfl
    · rw [slotStop, aligned]
    · rw [Nat.sub_add_cancel h.level_pos]
      refine ⟨rfl, aligned, valid, rfl, fun p le lt => ?_⟩
      rw [← entry]
      exact h.pages_slot (sameSlot_iff_between.mpr ⟨aligned.le.trans le, lt⟩)

/-- The map once the current entry is changed and the cursor moved on. -/
theorem pageMap_setEntry (h : Ready C c) {x : Child P} (aligned : C.slotStart c.level c.va = c.va)
    {new : Nat → Option (Nat × P)} (shown : ∀ p, C.SameSlot c.level p c.va → x.view C p c.level = new p) :
    ({ c.setEntry C x with level, va := C.slotStop c.level c.va } : Cursor P).pageMap C =
      { c.pageMap C with
        pages := setPages (pages C c.root) c.va (C.slotStop c.level c.va) new
        va := C.slotStop c.level c.va } := by
  ext1
  · funext p
    refine (pages_setEntry h x p).trans ?_
    refine if_ctx_congr ?_ (fun same => ?_) fun _ => rfl
    · rw [sameSlot_iff_between, aligned]
    · rw [shown p (sameSlot_iff_between.mpr (aligned.symm ▸ same))]
  · rfl
  · rfl
  · rfl

theorem slotStart_of_mod (aligned : va % C.pageSize level = 0) : C.slotStart level va = va :=
  Nat.div_mul_cancel (dvd_of_mod_eq_zero aligned)

theorem refines_map {item : Item P} (inv : Inv C c) (legal : Legal C c (.map item)) (meets : Meets C c (.map item)) :
    c.Refines C (.map item) := by
  obtain ⟨before, pos, highest, mod, within⟩ := legal
  obtain ⟨guard, unmappable, reach⟩ := meets
  have h : Ready C c := ⟨inv, before⟩
  have := h.level_le_levels
  have := h.guard_le
  obtain ⟨c', eq, ready, kept, va, level⟩ := adjust_ok (C.nrLevels + 1) h pos guard (by have := h.level_pos; omega)
  have aligned : C.slotStart c'.level c'.va = c'.va := by
    rw [level, va]
    exact slotStart_of_mod mod
  have stop : C.slotStop c'.level c'.va = c.va + C.pageSize item.level := by
    rw [slotStop, aligned, va, level]
  obtain ⟨frag, eq', old, -⟩ := replaceCurEntry_ok ready (.frame item.pa item.prop) aligned
    (fun _ => level ▸ unmappable)
  have changed := ready.setEntry (x := .frame item.pa item.prop) (by rw [level]; exact ⟨pos, highest⟩)
  obtain ⟨level', eq'', inv'⟩ := moveForward_ok changed (kept.reach reach)
  have fits : c.va + C.pageSize item.level < C.vaLimit := by
    have le : C.slotStop c'.level c'.va < C.vaLimit := slotStop_lt_limit ready (kept.reach reach)
    rwa [stop] at le
  have result : c.map C item =
      .ok (frag, { c'.setEntry C (.frame item.pa item.prop) with
        level := level', va := C.slotStop c'.level c'.va }) := by
    rw [map, if_neg (not_le.mpr before), if_neg (not_lt.mpr highest), if_neg (not_not.mpr mod), checkedAdd,
      if_pos fits, ok_bind, if_neg (not_lt.mpr within), eq, ok_bind, eq', ok_bind]
    change ((c'.setEntry C (.frame item.pa item.prop)).moveForward C >>= _) = _
    rw [eq'']
    rfl
  unfold Refines
  rw [exec, result]
  refine ⟨_, _, rfl, inv', ?_⟩
  have shown : ∀ p, C.SameSlot c'.level p c'.va →
      (Child.frame item.pa item.prop).view C p c'.level = some (item.pa + (p - c'.va), item.prop) := by
    intro p same
    rw [Child.view, mod_pageSize same, aligned]
  rw [pageMap_setEntry ready aligned shown, ← pageMap_eq kept va, stop, ← va]
  refine .map ?_
  change PageTableFrag.Shows C (pages C c'.root) c'.va (c'.va + C.pageSize item.level) frag
  rwa [va, ← stop, ← va]

/-- A search that splits huge pages stops at a slot that fits. -/
theorem Found.fits (h : c.Found C stop findUnmapSubtree true) : c.Fits C stop := by
  obtain ⟨pa, prop, -, fits | no⟩ | ⟨-, -, fits, -⟩ := h
  · exact fits
  · cases no
  · exact fits

theorem Found.present {splitHuge : Bool} (h : c.Found C stop findUnmapSubtree splitHuge) :
    (c.entry C).isNone = false := by
  obtain ⟨pa, prop, frame, -⟩ | ⟨table, -⟩ := h
  · rw [frame]
    rfl
  · exact Child.isNone_of_isTable table

theorem takeFound_ok (h : Ready C c) (reach : c.Reach C) (found : c.Found C stop true true) :
    ∃ frag level, c.takeFound C = .ok
      (some frag, { c.setEntry C .none with level, va := C.slotStop c.level c.va }) ∧
      Inv C { c.setEntry C .none with level, va := C.slotStop c.level c.va } ∧
      PageTableFrag.Shows C (pages C c.root) c.va (C.slotStop c.level c.va) (some frag) := by
  have fits := found.fits
  have unmappable : (c.entry C).isTable = true → C.topLevelCanUnmap = true ∨ c.level ≠ C.nrLevels := by
    intro table
    obtain ⟨pa, prop, frame, -⟩ | ⟨-, -, -, can⟩ := found
    · rw [frame] at table
      cases table
    · exact can
  obtain ⟨frag, eq, old, some⟩ := replaceCurEntry_ok h .none fits.1 unmappable
  obtain ⟨frag, rfl⟩ := isSome_iff_exists.mp (some found.present)
  obtain ⟨level, eq', inv⟩ := moveForward_ok (h.setEntry (x := .none) trivial) reach
  refine ⟨frag, level, ?_, inv, old⟩
  rw [takeFound, eq]
  change ((c.setEntry C .none).moveForward C >>= _) = _
  rw [eq']
  rfl

theorem refines_takeNext (inv : Inv C c) (within : c.va + len ≤ c.stop) (reach : c.Reach C) :
    c.Refines C (.takeNext len) := by
  obtain ⟨found, c', eq, inv', kept, le, skipped, result⟩ := findNextImpl_ok true true inv reach within
  unfold Refines
  rw [exec, takeNext, eq]
  rcases result with ⟨rfl, past⟩ | ⟨rfl, lt, here⟩
  · refine ⟨_, c', rfl, inv', ?_⟩
    rw [pageMap_searched kept.toKept]
    exact .takeNone past skipped
  have ready : Ready C c' := ⟨inv', by rw [kept.stop]; omega⟩
  obtain ⟨frag, level, eq', inv'', old⟩ := takeFound_ok ready (kept.reach reach) here
  refine ⟨.frag (some frag), _, ?_, inv'', ?_⟩
  · change (c'.takeFound C >>= _) = _
    rw [eq']
    rfl
  · rw [pageMap_setEntry ready here.fits.1 (fun _ _ => rfl), pageMap_searched kept.toKept, funext kept.pages]
    refine .takeNext le (lt_slotStop _ _) here.fits.2 skipped ?_
    rwa [funext kept.pages] at old

theorem protectFound_ok (h : Ready C c) (reach : c.Reach C) (found : c.Found C stop false true) (op : P → P) :
    ∃ level pa prop, c.entry C = .frame pa prop ∧
      c.protectFound C op = .ok (some (c.va, C.slotStop c.level c.va),
        { c.setEntry C (.frame pa (op prop)) with level, va := C.slotStop c.level c.va }) ∧
      Inv C { c.setEntry C (.frame pa (op prop)) with level, va := C.slotStop c.level c.va } := by
  obtain ⟨pa, prop, frame, -⟩ | ⟨-, no, -⟩ := id found
  · have valid := h.valid_entry
    rw [frame] at valid
    have ready := h.setEntry (x := .frame pa (op prop)) valid
    obtain ⟨level, eq, inv⟩ := moveForward_ok ready reach
    refine ⟨level, pa, prop, frame, ?_, inv⟩
    have range := curVaRange_ok ready reach
    have start : C.slotStart (c.setEntry C (.frame pa (op prop))).level
      (c.setEntry C (.frame pa (op prop))).va = c.va :=
      found.fits.1
    rw [start] at range
    rw [protectFound, h.curEntry, Child.protect_eq op frame]
    change ((c.setEntry C (.frame pa (op prop))).curVaRange C >>= _) = _
    rw [range]
    change ((c.setEntry C (.frame pa (op prop))).moveForward C >>= _) = _
    rw [eq]
    rfl
  · cases no

theorem refines_protectNext {op : P → P} (inv : Inv C c) (within : c.va + len ≤ c.stop)
    (reach : c.Reach C) : c.Refines C (.protectNext len op) := by
  obtain ⟨found, c', eq, inv', kept, le, skipped, result⟩ := findNextImpl_ok false true inv reach within
  unfold Refines
  rw [exec, protectNext, eq]
  rcases result with ⟨rfl, past⟩ | ⟨rfl, lt, here⟩
  · refine ⟨_, c', rfl, inv', ?_⟩
    rw [pageMap_searched kept.toKept]
    exact .protectNone past skipped
  have ready : Ready C c' := ⟨inv', by rw [kept.stop]; omega⟩
  obtain ⟨level, pa, prop, frame, eq', inv''⟩ := protectFound_ok ready (kept.reach reach) here op
  refine ⟨.changed (some (c'.va, C.slotStop c'.level c'.va)), _, ?_, inv'', ?_⟩
  · change (c'.protectFound C op >>= _) = _
    rw [eq']
    rfl
  have old := ready.shows_frame frame
  rw [here.fits.1] at old
  have shown : ∀ p, C.SameSlot c'.level p c'.va → (Child.frame pa (op prop)).view C p c'.level =
      (pages C c'.root p).map fun e => (e.1, op e.2) := by
    intro p same
    rw [ready.pages_slot same, frame]
    rfl
  rw [pageMap_setEntry ready here.fits.1 shown, pageMap_searched kept.toKept, funext kept.pages]
  rw [funext kept.pages] at old
  exact .protectNext le (lt_slotStop _ _) here.fits.2 skipped old

theorem refines_jump (inv : Inv C c) (meets : c.start ≤ va ∧ va < c.stop → c.Inside C ∧ c.NodeReach C) :
    c.Refines C (.jump va) := by
  unfold Refines
  rw [exec, jump]
  by_cases within : c.start ≤ va ∧ va < c.stop
  · obtain ⟨inside, reach⟩ := meets within
    have := inv.guard_le
    obtain ⟨level, eq, inv'⟩ := jumpLoop_ok (C.nrLevels + 1) inv inside reach within.1 within.2 (by omega)
    rw [if_neg (not_not.mpr within), eq]
    exact ⟨_, _, rfl, inv', .jump within⟩
  · rw [if_pos within]
    exact ⟨_, c, rfl, inv, .jumpInvalid within⟩

end Cursor

variable {start : Nat}

section Opening

variable {P : Type} {C : PagingConsts}

/-- What the way down to the guarding node leaves of a node of a level. -/
structure Locked (C : PagingConsts) (start stop level : Nat) (node node' : Child P) (guardLevel : Nat) : Prop where
  valid : node'.Valid C (level + 1)
  table : node'.isTable = true
  view : ∀ p, node'.view C p (level + 1) = node.view C p (level + 1)
  pos : 1 ≤ guardLevel
  le : guardLevel ≤ level
  inside : C.SameSlot (guardLevel + 1) start (stop - 1)
  guard : (node'.nodeAt C start level (level - guardLevel)).isTable = true

variable {node : Child P}

theorem Locked.here (pos : 1 ≤ level) (valid : node.Valid C (level + 1)) (table : node.isTable = true)
    (inside : C.SameSlot (level + 1) start (stop - 1)) : Locked C start stop level node node level :=
  ⟨valid, table, fun _ => rfl, pos, le_rfl, inside, by rwa [Nat.sub_self]⟩

/-- The child is locked in a node whose entry is a node. -/
theorem Locked.writePte {guardLevel : Nat} {child' : Child P} (managed : C.Managed start)
    (valid : node.Valid C (level + 2)) (entry : (node.child (C.pteIndex start (level + 1))).isTable = true)
    (h : Locked C start stop level (node.child (C.pteIndex start (level + 1))) child' guardLevel) :
    Locked C start stop (level + 1) node (node.writePte (C.pteIndex start (level + 1)) child') guardLevel := by
  have table := Child.isTable_of_child entry
  have written := Child.writePte_eq (Child.isNone_of_isTable entry) (Child.isNone_of_isTable h.table)
  refine ⟨?_, ?_, ?_, h.pos, le_succ_of_le h.le, h.inside, ?_⟩
  · rw [written]
    exact valid.replace h.valid managed.idx.1 managed.idx.2
  · rwa [Child.isTable_writePte]
  · intro p
    rw [Child.view_writePte table]
    split
    · next here => rw [h.view, Child.view_table table, here]
    · rfl
  · have le := h.le
    rw [show level + 1 - guardLevel = level - guardLevel + 1 by omega, Child.nodeAt, Child.child_writePte table,
      if_pos rfl]
    exact h.guard

theorem lockSubtreeRoot_ok (managed : C.Managed start) (pos : 1 ≤ level)
    (valid : node.Valid C (level + 1)) (table : node.isTable = true)
    (inside : C.SameSlot (level + 1) start (stop - 1)) :
    ∃ node' guardLevel, lockSubtreeRoot C start stop level node = .ok (node', guardLevel) ∧
      Locked C start stop level node node' guardLevel := by
  induction level generalizing node with
  | zero => cases pos
  | succ level ih =>
    rw [lockSubtreeRoot]
    split
    · next down =>
      have below : C.SameSlot (level + 1) start (stop - 1) := (sameSlot_iff (succ_pos level)).mpr ⟨inside, down.2⟩
      have child := valid.child managed.idx.1 managed.idx.2
      cases entry : node.child (C.pteIndex start (level + 1)) with
      | frame pa prop => exact ⟨node, level + 1, rfl, .here pos valid table inside⟩
      | pageTable nrChildren children =>
        rw [entry] at child
        obtain ⟨child', guardLevel, eq, locked⟩ := ih down.1 child rfl below
        rw [← entry] at locked
        refine ⟨_, guardLevel, ?_, locked.writePte managed valid (by rw [entry]; rfl)⟩
        change (lockSubtreeRoot C start stop level (.pageTable nrChildren children) >>= _) = _
        rw [eq]
        rfl
      | none =>
        have new : node.allocIfNone (level + 1) (C.pteIndex start (level + 1)) = some _ :=
          Child.allocIfNone_eq table entry (succ_lt_succ down.1)
        have valid' := valid.replace (Child.valid_alloc (succ_lt_succ down.1)) managed.idx.1 managed.idx.2
        have there : (node.replace (C.pteIndex start (level + 1)) .alloc).child (C.pteIndex start (level + 1)) =
            .alloc := by
          rw [Child.child_replace table, if_pos rfl]
        obtain ⟨child', guardLevel, eq, locked⟩ := ih down.1 (Child.valid_alloc (succ_lt_succ down.1)) rfl below
        rw [← there] at locked
        have written := locked.writePte managed valid' (by rw [there]; rfl)
        refine ⟨_, guardLevel, ?_, { written with view := ?_ }⟩
        · rw [new]
          rw [eq]
          rfl
        intro p
        rw [written.view, Child.view_replace table]
        split
        · next here =>
          rw [Child.view_table table, here, entry]
          rfl
        · rfl
    · exact ⟨node, level + 1, rfl, .here pos valid table inside⟩

variable {root : Child P}

theorem cursorMut_ok (valid : root.Valid C (C.nrLevels + 1)) (table : root.isTable = true)
    (lt : start < stop) (managed : C.vaddrStart ≤ start ∧ stop ≤ C.vaddrStop) :
    ∃ c, cursorMut C root start stop = .ok (.ok c) ∧ c.Inv C ∧
      c.pageMap C = ⟨pages C root, start, start, stop⟩ := by
  have range : ∀ p, start ≤ p → p < stop → C.Managed p := fun p le lt' =>
    ⟨le_trans managed.1 le, lt_of_lt_of_le lt' managed.2⟩
  have first : C.Managed start := range start le_rfl lt
  have last : C.Managed (stop - 1) := range _ (le_sub_one_of_lt lt) (by omega)
  obtain ⟨root', guardLevel, eq, locked⟩ := lockSubtreeRoot_ok first C.levels_pos valid table (first.sameSlot last)
  have checked : C.isValidRange start stop = .ok true := by
    rw [isValidRange, if_neg (by omega), if_pos managed.1, if_neg (by omega), decide_eq_true managed.2]
  refine ⟨⟨root', guardLevel, guardLevel, start, start, stop⟩, ?_, ?_, ?_⟩
  · have open_ : (!true || decide (stop ≤ start)) ≠ true := by simp [lt]
    rw [cursorMut, checked, ok_bind, if_neg open_, eq]
    rfl
  · exact {
      valid := locked.valid
      rooted := locked.table
      level_pos := locked.pos
      level_le := le_rfl
      guard_le := locked.le
      start_lt := lt
      managed := range
      inside := locked.inside
      start_le := le_rfl
      placed := fun _ => locked.guard
      outside := fun _ => rfl }
  · ext1
    · funext p
      change (if C.Managed p then root'.view C p (C.nrLevels + 1) else none) = pages C root p
      rw [locked.view]
      rfl
    · rfl
    · rfl
    · rfl

theorem cursorMut_invalid (lt : start < stop) (invalid : ¬ (C.vaddrStart ≤ start ∧ stop ≤ C.vaddrStop)) :
    cursorMut C root start stop = .ok (.error (.invalidVaddrRange start stop)) := by
  have checked : C.isValidRange start stop = .ok false := by
    rw [isValidRange, if_neg (by omega)]
    split
    · next le => rw [if_neg (by omega), decide_eq_false fun le' => invalid ⟨le, le'⟩]
    · rfl
  rw [cursorMut, checked]
  rfl

end Opening

namespace Cursor

variable {P : Type} {C : PagingConsts} {c c' : Cursor P} (inv : Inv C c)
include inv

theorem refines_cursor (lt : start < stop) : c.Refines C (.cursor start stop) := by
  unfold Refines
  rw [exec]
  by_cases managed : C.vaddrStart ≤ start ∧ stop ≤ C.vaddrStop
  · obtain ⟨new, eq, inv', map⟩ := cursorMut_ok inv.valid inv.rooted lt managed
    rw [eq]
    refine ⟨_, new, rfl, inv', ?_⟩
    rw [map]
    exact .cursor managed
  · rw [cursorMut_invalid lt managed]
    exact ⟨_, c, rfl, inv, .cursorInvalid managed⟩

theorem refines_op (op : Op P) (legal : Legal C c op) (meets : Meets C c op) : c.Refines C op := by
  cases op with
  | cursor start stop => exact refines_cursor inv legal
  | query => exact refines_query inv meets
  | findNext len => exact refines_findNext inv legal meets
  | jump va => exact refines_jump inv meets
  | map item => exact refines_map inv legal meets
  | takeNext len => exact refines_takeNext inv legal meets
  | protectNext len op => exact refines_protectNext inv legal meets

theorem Step.refines {label : Op P × Out P} (step : Step C c label c') :
    Inv C c' ∧ MapStep C (c.pageMap C) label (c'.pageMap C) := by
  obtain ⟨legal, meets, eq⟩ := step
  obtain ⟨out, next, eq', inv', mapStep⟩ := refines_op inv label.1 legal meets
  rw [eq] at eq'
  cases eq'
  exact ⟨inv', mapStep⟩

/-- Where no node in the range is empty, a fragment that is taken out has a page. -/
theorem takeNext_takes {len : Nat} {frag : PageTableFrag P} (within : c.va + len ≤ c.stop)
    (reach : c.Reach C) (full : NoEmptyTable C c.root c.va (c.va + len))
    (taken : c.takeNext C len = .ok (some frag, c')) :
    ∃ p, pages C c.root p ≠ none ∧ pages C c'.root p = none := by
  obtain ⟨found, mid, eq, inv', kept, le, skipped, result⟩ := findNextImpl_ok true true inv reach within
  rw [takeNext, eq] at taken
  rcases result with ⟨rfl, past⟩ | ⟨rfl, lt, here⟩
  · cases taken
  have ready : Ready C mid := ⟨inv', by rw [kept.stop]; omega⟩
  obtain ⟨_, level, eq', -, -⟩ := takeFound_ok ready (kept.reach reach) here
  change mid.takeFound C = _ at taken
  rw [eq'] at taken
  cases taken
  -- It is enough to find a page in the slot.
  suffices h : ∃ p, C.SameSlot mid.level p mid.va ∧ pages C mid.root p ≠ none by
    obtain ⟨p, same, mapped⟩ := h
    refine ⟨p, (kept.pages p).symm ▸ mapped, ?_⟩
    refine (pages_setEntry ready .none p).trans ?_
    rw [if_pos same]
    rfl
  obtain ⟨pa, prop, frame, -⟩ | ⟨table, -, fits, -⟩ := here
  · refine ⟨mid.va, .refl _ _, ?_⟩
    rw [ready.pages_slot (.refl _ _), frame]
    exact some_ne_none _
  obtain ⟨down, two⟩ := ready.pushLevel table
  have level_eq : mid.level - 1 + 1 = mid.level := Nat.sub_add_cancel ready.level_pos
  have := ready.level_le_levels
  obtain ⟨q, same, mapped⟩ := kept.tables _ _ full mid.va (mid.level - 1) ready.managed_va (by omega) (by omega)
    (by rw [level_eq, fits.1]; exact le) (by rw [level_eq]; exact fits.2) down.table
  exact ⟨q, same, mapped⟩

end Cursor

/-- A page table that was just made: a slot of the root is not there, or, in the page table of the kernel, an empty
node. The rest of the root belongs to another page table. -/
def Fresh {P : Type} (C : PagingConsts) (root : Child P) : Prop :=
  root.Valid C (C.nrLevels + 1) ∧ root.isTable = true ∧
    ∀ i, C.topStart ≤ i → i < C.topStop → root.child i = .none ∨ root.child i = .alloc

/-- The page tables of user space on x86. Their items are base pages. -/
def userPt : PagingConsts where
  nrSubpage := 512
  nrLevels := 4
  highestTranslationLevel := 1
  topLevelCanUnmap := true
  topStart := 0
  topStop := 256
  vaBase := 0
  vaLimit := 2 ^ 52
  two_le := by decide
  levels_pos := by decide
  highest_le := by decide
  top := by decide
  base := Nat.dvd_zero _
  fits := by decide

theorem fresh_alloc {P : Type} (C : PagingConsts) : Fresh C (.alloc : Child P) :=
  ⟨Child.valid_alloc (succ_le_succ C.levels_pos), rfl, fun _ _ _ => .inl rfl⟩

section Main

variable {P : Type} {C : PagingConsts}

theorem Fresh.pages {root : Child P} (fresh : Fresh C root) : pages C root = fun _ => none := by
  obtain ⟨-, table, slots⟩ := fresh
  funext p
  rw [PageTable.pages]
  split
  · next managed =>
    rw [Child.view_table table]
    rcases slots _ managed.div.2.1 managed.div.2.2 with vacant | empty
    · rw [vacant]
      rfl
    · rw [empty]
      rfl
  · rfl

/-- A page table that is driven by operations that meet the condition is a map: the operations return and do what
the machine does to it, and all nodes keep their count. -/
theorem cursor_refines_pageMap {root : Child P} {start stop : Nat} {c0 c : Cursor P} {labels : List (Op P × Out P)}
    (fresh : Fresh C root) (lt : start < stop) (opened : cursorMut C root start stop = .ok (.ok c0))
    (run : Labelled.Run (Cursor.Step C) c0 labels c) :
    c0.pageMap C = ⟨fun _ => none, start, start, stop⟩ ∧
    Labelled.Run (MapStep C) (c0.pageMap C) labels (c.pageMap C) ∧
      c.root.Valid C (C.nrLevels + 1) ∧
      ∀ op, c.Legal C op → c.Meets C op →
        (∃ out c', c.exec C op = .ok (out, c') ∧ MapStep C (c.pageMap C) (op, out) (c'.pageMap C)) ∧
          ∀ len frag c', op = .takeNext len → c.takeNext C len = .ok (some frag, c') →
            Cursor.NoEmptyTable C c.root c.va (c.va + len) → ∃ p, pages C c.root p ≠ none ∧
            pages C c'.root p = none := by
  have managed : C.vaddrStart ≤ start ∧ stop ≤ C.vaddrStop := by
    by_contra invalid
    rw [cursorMut_invalid lt invalid] at opened
    cases opened
  obtain ⟨new, eq, inv0, map⟩ := cursorMut_ok fresh.1 fresh.2.1 lt managed
  rw [opened] at eq
  cases eq
  obtain ⟨inv, mapRun⟩ := run.simulate (fun _ _ _ inv step => step.refines inv) inv0
  refine ⟨?_, mapRun, inv.valid, fun op legal meets => ⟨?_, ?_⟩⟩
  · rw [map, fresh.pages]
  · obtain ⟨out, c', eq, -, step⟩ := Cursor.refines_op inv op legal meets
    exact ⟨out, c', eq, step⟩
  · rintro len frag c' rfl taken full
    exact Cursor.takeNext_takes inv legal meets full taken

end Main

/-- Two pages are mapped, the cursor jumps back and takes the first one. -/
theorem refines_two_pages : ∃ c0 c : Cursor Unit, cursorMut userPt .alloc 0 512 = .ok (.ok c0) ∧
      Labelled.Run (MapStep userPt) ⟨fun _ => none, 0, 0, 512⟩
        [(.map ⟨7, 1, ()⟩, .frag none), (.map ⟨9, 1, ()⟩, .frag none), (.jump 0, .done),
          (.takeNext 2, .frag (some (.mapped 0 ⟨7, 1, ()⟩)))] (c.pageMap userPt) ∧
      c.root.Valid userPt 5 := by
  obtain ⟨c0, c1, c2, c3, c, opened, first, second, back, taken⟩ : ∃ c0 c1 c2 c3 c : Cursor Unit,
      cursorMut userPt .alloc 0 512 = .ok (.ok c0) ∧ c0.Step userPt (.map ⟨7, 1, ()⟩, .frag none) c1 ∧
        c1.Step userPt (.map ⟨9, 1, ()⟩, .frag none) c2 ∧ c2.Step userPt (.jump 0, .done) c3 ∧
        c3.Step userPt (.takeNext 2, .frag (some (.mapped 0 ⟨7, 1, ()⟩))) c := by
    refine ⟨_, _, _, _, _, rfl, ⟨⟨?_, ?_, ?_, ?_, ?_⟩, ⟨?_, .inl rfl, ?_⟩, rfl⟩,
      ⟨⟨?_, ?_, ?_, ?_, ?_⟩, ⟨?_, .inl rfl, ?_⟩, rfl⟩,
      ⟨trivial, fun _ => ⟨rfl, show userPt.slotStop 2 0 < _ from ?_⟩, rfl⟩,
      ⟨show 0 + 2 ≤ 512 from ?_, show userPt.slotStop 1 511 < _ from ?_, rfl⟩⟩ <;> decide
  obtain ⟨start, run, valid, -⟩ := cursor_refines_pageMap (fresh_alloc userPt) (by decide) opened
    (.cons first (.cons second (.cons back (.single taken))))
  rw [start] at run
  exact ⟨c0, c, opened, run, valid⟩

/-- Once the last page of a huge page is mapped, the cursor cannot jump back. -/
theorem jump_back_panics : ∃ c0 c1 c : Cursor Unit, cursorMut userPt .alloc 0 512 = .ok (.ok c0) ∧
      c0.exec userPt (.jump 511) = .ok (.done, c1) ∧ c1.Legal userPt (.map ⟨7, 1, ()⟩) ∧
      c1.exec userPt (.map ⟨7, 1, ()⟩) = .ok (.frag none, c) ∧ c.start = 0 ∧ c.stop = 512 ∧
      c.exec userPt (.jump 0) = .error "assertion failed: self.level < self.guard_level" := by
  refine ⟨_, _, _, rfl, rfl, ⟨?_, ?_, ?_, ?_, ?_⟩, rfl, rfl, rfl, rfl⟩ <;> decide

end OmegaOsx.PageTable
