import OmegaOsx.PageTable.Node

/-!
# Page table cursors

`Cursor` and `CursorMut` of `page_table/cursor`, together with the page table they are on. The nodes
`path` holds are those on the way from the root to the current address. Loops are bounded by fuel, which
is shown to last.

A function returns or panics; additions of addresses panic on overflow and debug assertions are on. A
cursor has its range to itself, so locking always succeeds and nodes in the range are never stray. The
locks of a subtree are left out, and with them the overflow in `dfs_acquire_lock` at the last address.
-/

namespace OmegaOsx.PageTable

inductive PageTableError
  | invalidVaddrRange (start stop : Nat)
  | invalidVaddr (va : Nat)
  deriving DecidableEq, Repr

/-- `C::Item`, as `item_into_raw` gives it. -/
structure Item (P : Type) where
  pa : Nat
  level : Nat
  prop : P
  deriving DecidableEq

inductive PageTableFrag (P : Type)
  | mapped (va : Nat) (item : Item P)
  | strayPageTable (pt : Child P) (va len numFrames : Nat)

namespace Child

variable {P : Type} (C : PagingConsts)

/-- The node `depth` levels below a node of a level, on the way to an address. -/
def nodeAt (va : Nat) : Nat → Nat → Child P → Child P
  | _, 0, node => node
  | level, depth + 1, node => nodeAt va (level - 1) depth (node.child (C.pteIndex va level))

/-- Sets that node. -/
def setNodeAt (va : Nat) (new : Child P) : Nat → Nat → Child P → Child P
  | _, 0, _ => new
  | level, depth + 1, node =>
    node.writePte (C.pteIndex va level)
      (setNodeAt va new (level - 1) depth (node.child (C.pteIndex va level)))

end Child

structure Cursor (P : Type) where
  /-- The root of the page table. -/
  root : Child P
  level : Nat
  guardLevel : Nat
  va : Nat
  /-- `barrier_va`. -/
  start : Nat
  stop : Nat

namespace Cursor

variable {P : Type} (C : PagingConsts)

def outOfFuel {α : Type} : Res α := .error "out of fuel"

def checkedAdd (a b : Nat) : Res Nat :=
  if a + b < C.vaLimit then .ok (a + b) else .error "attempt to add with overflow"

variable (c : Cursor P)

/-- The node of the current level in `path`. -/
def node : Child P := c.root.nodeAt C c.va C.nrLevels (C.nrLevels - c.level)

def setNode (new : Child P) : Cursor P :=
  { c with root := Child.setNodeAt C c.va new C.nrLevels (C.nrLevels - c.level) c.root }

def curIdx : Nat := C.pteIndex c.va c.level

def curEntry : Res (Child P) :=
  if (c.node C).isTable then .ok ((c.node C).child (c.curIdx C))
  else .error "called `Option::unwrap()` on a `None` value"

def curVaRange : Res (Nat × Nat) := do
  let entrySize := C.pageSize c.level
  let entryStart := c.va / entrySize * entrySize
  let entryStop ← checkedAdd C entryStart entrySize
  pure (entryStart, entryStop)

/-- Goes down to the node of the current entry. -/
def pushLevel : Cursor P := { c with level := c.level - 1 }

def popLevel : Res (Cursor P) :=
  if c.level < c.guardLevel then .ok { c with level := c.level + 1 }
  else .error "assertion failed: self.level < self.guard_level"

/-- The loop of `move_forward`. -/
def climb (nextVa : Nat) : Nat → Cursor P → Cursor P
  | 0, c => c
  | fuel + 1, c =>
    if c.level < c.guardLevel ∧ C.pteIndex nextVa c.level = 0 then
      climb nextVa fuel { c with level := c.level + 1 }
    else c

def moveForward : Res (Cursor P) := do
  let range ← c.curVaRange C
  pure { climb C range.2 (c.guardLevel - c.level) c with va := range.2 }

/-- The loop of `query`: goes down to an entry that is not a node. -/
def descend : Nat → Cursor P → Res (Child P × Cursor P)
  | 0, _ => outOfFuel
  | fuel + 1, c => do
    let entry ← c.curEntry C
    if entry.isTable then descend fuel c.pushLevel else pure (entry, c)

/-- What `query` returns for an entry of a level. -/
def toItem (level : Nat) : Child P → Option (Item P)
  | .frame pa prop => some ⟨pa, level, prop⟩
  | _ => none

def query : Res (Except PageTableError ((Nat × Nat) × Option (Item P)) × Cursor P) :=
  if c.stop ≤ c.va then .ok (.error (.invalidVaddr c.va), c)
  else do
    let (entry, c) ← c.descend C c.level
    let range ← c.curVaRange C
    pure (.ok (range, toItem c.level entry), c)

/-- `cur_entry_fits_range` for a search that stops at `stop`. -/
def fits (range : Nat × Nat) (stop : Nat) : Bool := c.va == range.1 && range.2 ≤ stop

def splitCur : Res (Cursor P) :=
  match (c.node C).splitIfMappedHuge C c.level (c.curIdx C) with
  | some node => .ok (c.setNode C node)
  | none => .error "The entry must be a huge page"

/-- The loop of `find_next_impl`. -/
def findLoop (stop : Nat) (findUnmapSubtree splitHuge : Bool) : Nat → Cursor P → Res (Option Nat × Cursor P)
  | 0, _ => outOfFuel
  | fuel + 1, c =>
    if stop ≤ c.va then .ok (none, c)
    else do
      let range ← c.curVaRange C
      let entry ← c.curEntry C
      match entry with
      | .pageTable nrChildren _ =>
        if findUnmapSubtree && c.fits range stop && (C.topLevelCanUnmap || c.level != C.nrLevels) then
          pure (some c.va, c)
        else if nrChildren ≠ 0 then findLoop stop findUnmapSubtree splitHuge fuel c.pushLevel
        else do
          let c ← c.moveForward C
          findLoop stop findUnmapSubtree splitHuge fuel c
      | .none => do
        let c ← c.moveForward C
        findLoop stop findUnmapSubtree splitHuge fuel c
      | .frame _ _ =>
        if c.fits range stop || !splitHuge then pure (some c.va, c)
        else do
          let c ← c.splitCur C
          findLoop stop findUnmapSubtree splitHuge fuel c.pushLevel

/-- Rounds of the loop from `va` up to `stop`: each moves the cursor forward or goes down a level. -/
def rounds (va stop level : Nat) : Nat := (stop - va) * (C.nrLevels + 1) + level + 1

variable (len : Nat)

def findNextImpl (findUnmapSubtree splitHuge : Bool) : Res (Option Nat × Cursor P) := do
  let stop ← checkedAdd C c.va len
  if c.stop < stop then .error "assertion failed: end <= self.barrier_va.end"
  else findLoop C stop findUnmapSubtree splitHuge (rounds C c.va stop c.level) c

def findNext : Res (Option Nat × Cursor P) := c.findNextImpl C len false false

/-- The loop of `jump`. -/
def jumpLoop (va : Nat) : Nat → Cursor P → Res (Cursor P)
  | 0, _ => outOfFuel
  | fuel + 1, c => do
    let nodeSize := C.pageSize (c.level + 1)
    let nodeStart := c.va / nodeSize * nodeSize
    let nodeStop ← checkedAdd C nodeStart nodeSize
    if nodeStart ≤ va ∧ va < nodeStop then pure { c with va := va }
    else do
      let c ← c.popLevel
      jumpLoop va fuel c

def jump (va : Nat) : Res (Except PageTableError Unit × Cursor P) :=
  if ¬ (c.start ≤ va ∧ va < c.stop) then .ok (.error (.invalidVaddr va), c)
  else do
    let c ← jumpLoop C va (C.nrLevels + 1) c
    pure (.ok (), c)

/-- One round of the loop of `map` above the level of the item. -/
def stepDown : Res (Cursor P) := do
  let entry ← c.curEntry C
  match entry with
  | .pageTable _ _ => pure c.pushLevel
  | .none =>
    match (c.node C).allocIfNone c.level (c.curIdx C) with
    | some node => pure (c.setNode C node).pushLevel
    | none => .error "called `Option::unwrap()` on a `None` value"
  | .frame _ _ =>
    match (c.node C).splitIfMappedHuge C c.level (c.curIdx C) with
    | some node => pure (c.setNode C node).pushLevel
    | none => .error "called `Option::unwrap()` on a `None` value"

/-- The loop of `map`: adjusts the cursor to the level of the item. -/
def adjust (level : Nat) : Nat → Cursor P → Res (Cursor P)
  | 0, _ => outOfFuel
  | fuel + 1, c =>
    if c.level = level then .ok c
    else if c.level < level then do
      let c ← c.popLevel
      adjust level fuel c
    else do
      let c ← c.stepDown C
      adjust level fuel c

/-- The fragment that an old entry of a level makes. -/
def toFrag (va level : Nat) : Child P → Res (Option (PageTableFrag P))
  | .none => .ok none
  | .frame pa prop => .ok (some (.mapped va ⟨pa, level, prop⟩))
  | .pageTable nrChildren children =>
    if !C.topLevelCanUnmap && level == C.nrLevels then .error "Unmapping shared kernel page table nodes"
    else
      .ok (some (.strayPageTable (.pageTable nrChildren children) va (C.pageSize level)
        ((Child.pageTable nrChildren children).numFrames C (level - 1))))

def replaceCurEntry (newChild : Child P) : Res (Option (PageTableFrag P) × Cursor P) := do
  let old ← c.curEntry C
  let frag ← toFrag C c.va c.level old
  pure (frag, c.setNode C ((c.node C).replace (c.curIdx C) newChild))

/-- The old fragment is the error of the source. -/
def map (item : Item P) : Res (Option (PageTableFrag P) × Cursor P) :=
  if c.stop ≤ c.va then .error "assertion failed: self.0.va < self.0.barrier_va.end"
  else if C.highestTranslationLevel < item.level then
    .error "assertion failed: level <= C::HIGHEST_TRANSLATION_LEVEL"
  else if c.va % C.pageSize item.level ≠ 0 then .error "assertion `left == right` failed"
  else do
    let stop ← checkedAdd C c.va (C.pageSize item.level)
    if c.stop < stop then .error "assertion failed: end <= self.0.barrier_va.end"
    else do
      let c ← adjust C item.level (C.nrLevels + 1) c
      let (frag, c) ← c.replaceCurEntry C (.frame item.pa item.prop)
      let c ← c.moveForward C
      pure (frag, c)

def takeFound : Res (Option (PageTableFrag P) × Cursor P) := do
  let (frag, c) ← c.replaceCurEntry C .none
  let c ← c.moveForward C
  pure (frag, c)

def takeNext : Res (Option (PageTableFrag P) × Cursor P) := do
  let (found, c) ← c.findNextImpl C len true true
  match found with
  | none => pure (none, c)
  | some _ => c.takeFound C

def protectFound (op : P → P) : Res (Option (Nat × Nat) × Cursor P) := do
  let _ ← c.curEntry C
  let c := c.setNode C ((c.node C).protect (c.curIdx C) op)
  let range ← c.curVaRange C
  let c ← c.moveForward C
  pure (some range, c)

def protectNext (op : P → P) : Res (Option (Nat × Nat) × Cursor P) := do
  let (found, c) ← c.findNextImpl C len false true
  match found with
  | none => pure (none, c)
  | some _ => c.protectFound C op

end Cursor

/-- `try_traverse_and_lock_subtree_root`, from a node of a level on: the node with the new nodes on the way, and
the level of the node found. -/
def lockSubtreeRoot {P : Type} (C : PagingConsts) (start stop : Nat) : Nat → Child P → Res (Child P × Nat)
  | 0, node => .ok (node, 0)
  | level + 1, node =>
    if 0 < level ∧ C.pteIndex start (level + 1) = C.pteIndex (stop - 1) (level + 1) then
      match node.child (C.pteIndex start (level + 1)) with
      | .pageTable nrChildren children => do
        let (child, guardLevel) ← lockSubtreeRoot C start stop level (.pageTable nrChildren children)
        pure (node.writePte (C.pteIndex start (level + 1)) child, guardLevel)
      | .frame _ _ => .ok (node, level + 1)
      | .none =>
        match node.allocIfNone (level + 1) (C.pteIndex start (level + 1)) with
        | some node => do
          let (child, guardLevel) ← lockSubtreeRoot C start stop level .alloc
          pure (node.writePte (C.pteIndex start (level + 1)) child, guardLevel)
        | none => .error "called `Option::unwrap()` on a `None` value"
    else .ok (node, level + 1)

/-- `CursorMut::new`. -/
def cursorMut {P : Type} (C : PagingConsts) (root : Child P) (start stop : Nat) :
    Res (Except PageTableError (Cursor P)) := do
  let valid ← C.isValidRange start stop
  if !valid || stop ≤ start then pure (.error (.invalidVaddrRange start stop))
  else do
    let (root, guardLevel) ← lockSubtreeRoot C start stop C.nrLevels root
    pure (.ok ⟨root, guardLevel, guardLevel, start, start, stop⟩)

end OmegaOsx.PageTable
