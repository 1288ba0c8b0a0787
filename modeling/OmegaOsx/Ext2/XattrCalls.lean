import OmegaOsx.Ext2.XattrMap

/-!
# Sequences of calls on the attributes of an inode

`Good` says when a call keeps the attributes apart from each other; `calls_refine_map` is about every
sequence of such calls, with the rest of the system free to allocate and free blocks in between.
`empty_value_loses_attribute` shows what an empty value can do.
-/

namespace OmegaOsx.Ext2.Xattr

open ByteBuffer BitRange Option
open MlsDisk (bind_ok ok_bind exists_ok_of_map)

/-! ### Loading -/

/-- The file system keeps its counters, and block 0 is not given away. -/
structure Device.WF (dev : Device) : Prop where
  fs : dev.fs.WF
  zero : dev.fs.used 0 = true

/-- No attribute block yet. -/
structure Fresh (x : Xattr) : Prop where
  bid : x.bid = 0
  header : x.header = none
  entries : x.entries = .empty
  values : x.values = .empty

/-- The attribute block is in the buffer. -/
structure Loaded (x : Xattr) : Prop where
  bid : x.bid ≠ 0
  header : x.header ≠ none
  layout : x.Layout

def Inv (x : Xattr) : Prop := Fresh x ∨ Loaded x

variable {x x' : Xattr} {dev dev' : Device} {name : XattrName}

theorem Fresh.lookup (h : Fresh x) (name : XattrName) : x.lookup name = none := by
  unfold Xattr.lookup findEntry
  rw [if_neg (ne_of_gt name.length_pos), h.entries]
  rfl

theorem Fresh.space (h : Fresh x) : x.space = 4060 := by
  unfold Xattr.space firstValueStart lastEntryEnd
  rw [h.entries, h.values]
  rfl

/-- A new block has no attributes. -/
theorem layout_new (buf : Nat → UInt8) (bid : Nat) (dirty : Bool) :
    Layout ⟨write buf 0 XattrHeader.new.bytes, bid, some XattrHeader.new, .empty, .empty, dirty⟩ := by
  refine ⟨?_, ?_, ?_, ?_, ?_, ?_, ?_, ?_, ?_, ?_, ?_, ?_⟩
  · have := slice_write_part buf 0 (show 0 + 4 ≤ XattrHeader.new.bytes.length by decide)
    rw [this]
    decide
  all_goals
    intros
    contradiction

theorem lazyInit_loaded (h : Loaded x) (group : Nat) (dev : Device) : lazyInit group dev x = .ok (.ok (), dev, x) := by
  unfold lazyInit
  rw [if_neg h.bid, if_neg h.header]

theorem lazyInit_fresh (h : Fresh x) (wf : dev.WF) (group : Nat) :
    lazyInit group dev x = .ok (.error ⟨.enospc, none⟩, dev, x) ∨
      ∃ dev' x', lazyInit group dev x = .ok (.ok (), dev', x') ∧ dev'.WF ∧ Loaded x' ∧
        x'.entries = .empty ∧ x'.values = .empty ∧ x'.dirty = true := by
  unfold lazyInit
  rw [if_pos h.bid, require_of _ h.header]
  rcases lt_or_ge dev.fs.freeBlocksCount 1 with less | le
  · rw [Ext2.allocBlocks_none less]
    exact .inl rfl
  obtain ⟨start, stop, fs', eq, allocates, -⟩ := Ext2.allocBlocks_ok wf.fs one_pos le group
  rw [eq]
  have other : start ≠ 0 := by
    rintro rfl
    have free := (allocates.free 0 le_rfl allocates.lt).2
    rw [wf.zero] at free
    cases free
  have zero : fs'.used 0 = true := by
    rw [allocates.used, setRange_of_not_mem (by omega)]
    exact wf.zero
  refine .inr ⟨_, _, rfl, ⟨allocates.wf, zero⟩, ⟨other, some_ne_none _, ?_⟩, h.entries, h.values, rfl⟩
  rw [h.entries, h.values]
  exact layout_new _ _ _

theorem lookup_of_empty (h : x.Layout) (empty : x.entries = .empty) (name : XattrName) : x.lookup name = none := by
  refine (lookup_eq_none h).mpr fun bytes => ?_
  rintro ⟨o, e, found, -⟩
  rw [empty] at found
  cases found

/-- `lazy_init` leaves the attributes and the space for new ones. -/
theorem lazyInit_spec (inv : Inv x) (wf : dev.WF) (group : Nat) :
    (lazyInit group dev x = .ok (.error ⟨.enospc, none⟩, dev, x) ∧ Fresh x) ∨
      ∃ dev' x', lazyInit group dev x = .ok (.ok (), dev', x') ∧ dev'.WF ∧ Loaded x' ∧
        x'.lookup = x.lookup ∧ x'.space = x.space ∧ (x'.dirty = true ∨ (dev' = dev ∧ x' = x)) := by
  rcases inv with fresh | loaded
  · rcases lazyInit_fresh fresh wf group with eq | ⟨dev', x', eq, wf', loaded, entries, values, dirty⟩
    · exact .inl ⟨eq, fresh⟩
    refine .inr ⟨dev', x', eq, wf', loaded, ?_, ?_, .inl dirty⟩
    · funext name
      rw [fresh.lookup, lookup_of_empty loaded.layout entries]
    rw [fresh.space]
    unfold space firstValueStart lastEntryEnd
    rw [entries, values]
    rfl
  · exact .inr ⟨dev, x, lazyInit_loaded loaded group dev, wf, loaded, rfl, rfl, .inr ⟨rfl, rfl⟩⟩

variable {group : Nat} {x1 : Xattr} {α : Type} {f : Xattr → Res (Outcome Xattr α)} {err : Error}

theorem afterInit_ok {result : Except Error α} {x2 : Xattr}
    (init : lazyInit group dev x = .ok (.ok (), dev', x1)) (rest : f x1 = .ok (result, x2)) :
    afterInit f group dev x = .ok (result, dev', x2) := by
  unfold afterInit
  rw [init, ok_bind]
  dsimp only
  rw [rest]
  rfl

theorem afterInit_error (init : lazyInit group dev x = .ok (.error err, dev', x1)) :
    afterInit f group dev x = .ok (.error err, dev', x1) := by
  unfold afterInit
  rw [init]
  rfl

/-! ### Calls -/

inductive Call
  | set (name : XattrName) (reader : VmReader) (flags : XattrSetFlags)
  | get (name : XattrName) (writer : VmWriter)
  | remove (name : XattrName)

inductive Answer
  | done
  | value (len : Nat) (bytes : List UInt8)
  deriving DecidableEq

def Call.exec (group : Nat) (dev : Device) (x : Xattr) : Call → Res (Outcome (Device × Xattr) Answer)
  | .set name reader flags => do
    let (result, s) ← Xattr.set name reader flags group dev x
    pure (result.map fun _ => .done, s)
  | .get name writer => do
    let (result, s) ← Xattr.get name writer group dev x
    pure (result.map fun v => .value v.1 v.2, s)
  | .remove name => do
    let (result, s) ← Xattr.remove name group dev x
    pure (result.map fun _ => .done, s)

/-- A value that is set is not empty, and a new attribute does not crowd the block. -/
def Sound (x : Xattr) : Call → Prop
  | .set name reader _ =>
    reader.bytes ≠ [] ∧ (x.lookup name = none → ¬ x.Crowded name.fullName.length reader.bytes.length)
  | _ => True

/-- No value is replaced in place if reading the new one faults. -/
def Undisturbed (x : Xattr) : Call → Prop
  | .set name reader _ =>
    reader.readable < reader.bytes.length → ∀ old, x.lookup name = some old → old.length < reader.bytes.length
  | _ => True

def Good (x : Xattr) (call : Call) : Prop := Sound x call ∧ Undisturbed x call

variable (m : XattrName → Option (List UInt8))

/-- The map with another value for a name. -/
def assign (name : XattrName) (value : Option (List UInt8)) :
    XattrName → Option (List UInt8) := fun name' => if name'.fullName = name.fullName then value else m name'

/-- What a call may do to a map from names to values. -/
def Correct (result : Except Error Answer) (m' : XattrName → Option (List UInt8)) : Call → Prop
  | .set name reader flags =>
    (result = .ok .done ∧ m' = assign m name (some reader.bytes) ∧ (flags.createOnly = true → m name = none) ∧
        (flags.replaceOnly = true → m name ≠ none)) ∨
      ∃ err, result = .error err ∧ m' = m
  | .get name writer =>
    m' = m ∧ (m name = none → ∃ err, result = .error err) ∧
      ∀ value, m name = some value → result = (answer writer value).map fun v => .value v.1 v.2
  | .remove name =>
    (m name ≠ none ∧ result = .ok .done ∧ m' = assign m name none) ∨
    (m name = none ∧ ∃ err, result = .error err ∧ m' = m)

theorem eq_iff_fullName {name name' : XattrName} : name' = name ↔ name'.fullName = name.fullName :=
  ⟨congrArg _, XattrName.ext_fullName⟩

theorem lookup_eq_assign (h : x.Layout) (h' : x'.Layout) {value : Option (List UInt8)}
    (bound : ∀ name' bytes', x'.Attr name' bytes' ↔ (name' = name ∧ some bytes' = value) ∨
    (name' ≠ name ∧ x.Attr name' bytes')) :
    x'.lookup = assign x.lookup name value := by
  funext name'
  unfold assign
  refine ext fun bytes' => ?_
  rw [lookup_eq_some h', bound]
  split
  · next same =>
    rw [← eq_iff_fullName] at same
    constructor
    · rintro (⟨-, eq⟩ | ⟨ne, -⟩)
      · exact eq.symm
      · exact absurd same ne
    · intro eq
      exact .inl ⟨same, eq.symm⟩
  · next other =>
    rw [← eq_iff_fullName] at other
    rw [lookup_eq_some h]
    constructor
    · rintro (⟨same, -⟩ | ⟨-, old⟩)
      · exact absurd same other
      · exact old
    · intro old
      exact .inr ⟨other, old⟩

theorem lookup_congr (h : x.Layout) (h' : x'.Layout) (same : ∀ name bytes, x'.Attr name bytes ↔ x.Attr name bytes) :
    x'.lookup = x.lookup := by
  funext name
  exact ext fun bytes => (lookup_eq_some h').trans ((same name bytes).trans (lookup_eq_some h).symm)

theorem Loaded.of_frame (h : Loaded x) (layout : x'.Layout) (frame : Frame x x') : Loaded x' :=
  ⟨frame.bid ▸ h.bid, frame.header ▸ h.header, layout⟩

/-- What a call does to a loaded block. -/
inductive Effect (x : Xattr) : Call → Except Error Answer → Xattr → Prop
  | set {name : XattrName} {reader : VmReader} {flags : XattrSetFlags} {result : Except Error Unit} {x' : Xattr}
      (effect : SetEffect x name reader flags result x') :
      Effect x (.set name reader flags) (result.map fun _ => .done) x'
  | getNone {name : XattrName} {writer : VmWriter} {err : Error} (none : x.lookup name = none) :
      Effect x (.get name writer) (.error err) x
  | get {name : XattrName} {writer : VmWriter} {value : List UInt8} (found : x.lookup name = some value) :
      Effect x (.get name writer) ((answer writer value).map fun v => .value v.1 v.2) x
  | removeNone {name : XattrName} {err : Error} (none : x.lookup name = none) : Effect x (.remove name) (.error err) x
  | remove {name : XattrName} {x' : Xattr} (some : x.lookup name ≠ none) (layout : x'.Layout) (frame : Frame x x')
      (dirty : x'.dirty = true)
      (removed : ∀ name' bytes, x'.Attr name' bytes ↔ name' ≠ name ∧ x.Attr name' bytes) :
      Effect x (.remove name) (.ok .done) x'

namespace Effect

variable {call : Call} {result : Except Error Answer}

theorem loaded (h : Loaded x) (effect : Effect x call result x') : Loaded x' := by
  cases effect with
  | set effect => exact h.of_frame effect.layout effect.frame
  | getNone _ => exact h
  | get _ => exact h
  | removeNone _ => exact h
  | remove _ layout frame _ _ => exact h.of_frame layout frame

theorem frame (effect : Effect x call result x') : Frame x x' := by
  cases effect with
  | set effect => exact effect.frame
  | getNone _ => exact ⟨rfl, rfl⟩
  | get _ => exact ⟨rfl, rfl⟩
  | removeNone _ => exact ⟨rfl, rfl⟩
  | remove _ _ frame _ _ => exact frame

theorem noticed (effect : Effect x call result x') : Noticed x x' := by
  cases effect with
  | set effect => exact effect.noticed
  | getNone _ => exact .refl x
  | get _ => exact .refl x
  | removeNone _ => exact .refl x
  | remove _ _ _ dirty _ => exact .inl dirty

/-- The attributes change as a map. -/
theorem correct (h : x.Layout) (good : Undisturbed x call) (effect : Effect x call result x') :
    Correct x.lookup result x'.lookup call := by
  cases effect with
  | @set name reader flags result x' effect =>
    rcases result with err | ⟨⟩
    · refine .inr ⟨err, rfl, lookup_congr h effect.layout (effect.failed err rfl fun fault old attr => ?_)⟩
      exact good fault old ((lookup_eq_some h).mpr attr)
    refine .inl ⟨rfl, lookup_eq_assign h effect.layout fun name' bytes' => ?_, fun set => ?_, fun set => ?_⟩
    · rw [effect.bound rfl, some.injEq]
    · exact (lookup_eq_none h).mpr (effect.createOnly rfl set)
    · obtain ⟨old, attr⟩ := effect.replaceOnly rfl set
      rw [(lookup_eq_some h).mpr attr]
      exact some_ne_none _
  | getNone none =>
    refine ⟨rfl, fun _ => ⟨_, rfl⟩, fun value found => ?_⟩
    rw [none] at found
    cases found
  | get found =>
    refine ⟨rfl, fun none => ?_, fun value' found' => ?_⟩
    · rw [found] at none
      cases none
    · cases found.symm.trans found'
      rfl
  | removeNone none => exact .inr ⟨none, _, rfl, rfl⟩
  | remove some layout _ _ removed =>
    refine .inl ⟨some, rfl, lookup_eq_assign h layout fun name' bytes' => ?_⟩
    rw [removed]
    constructor
    · exact .inr
    · rintro (⟨-, eq⟩ | old)
      · cases eq
      · exact old

end Effect

variable {call : Call}

/-- A sound call on a loaded block returns. -/
theorem exec_loaded (init : lazyInit group dev x = .ok (.ok (), dev', x1)) (layout : x1.Layout)
    (sound : Sound x1 call) :
    ∃ result x', call.exec group dev x = .ok (result, dev', x') ∧ Effect x1 call result x' := by
  cases call with
  | set name reader flags =>
    obtain ⟨result, x2, eq, effect⟩ := setLoaded_spec flags layout (List.length_pos_iff.mpr sound.1)
      fun absent => sound.2 ((lookup_eq_none layout).mpr absent)
    rw [Call.exec, set, afterInit_ok init eq]
    exact ⟨_, _, rfl, .set effect⟩
  | get name writer =>
    rcases getLoaded_spec layout name writer with ⟨none, eq⟩ | ⟨value, found, eq⟩
    · rw [Call.exec, get, afterInit_ok init eq]
      exact ⟨_, _, rfl, .getNone none⟩
    · rw [Call.exec, get, afterInit_ok init eq]
      exact ⟨_, _, rfl, .get found⟩
  | remove name =>
    rcases removeLoaded_spec layout name with ⟨none, eq⟩ | ⟨x2, some, eq, layout2, frame, dirty, removed⟩
    · rw [Call.exec, remove, afterInit_ok init eq]
      exact ⟨_, _, rfl, .removeNone none⟩
    · rw [Call.exec, remove, afterInit_ok init eq]
      exact ⟨_, _, rfl, .remove some layout2 frame dirty removed⟩

/-- Without a block for it, the inode has no attributes. -/
theorem exec_enospc (fresh : Fresh x) (init : lazyInit group dev x = .ok (.error err, dev, x))
    (call : Call) : call.exec group dev x = .ok (.error err, dev, x) ∧
    Correct x.lookup (.error err) x.lookup call := by
  cases call with
  | set name reader flags =>
    rw [Call.exec, set, afterInit_error init]
    exact ⟨rfl, .inr ⟨_, rfl, rfl⟩⟩
  | get name writer =>
    rw [Call.exec, get, afterInit_error init]
    refine ⟨rfl, rfl, fun _ => ⟨_, rfl⟩, fun value found => ?_⟩
    rw [fresh.lookup] at found
    cases found
  | remove name =>
    rw [Call.exec, remove, afterInit_error init]
    exact ⟨rfl, .inr ⟨fresh.lookup name, _, rfl, rfl⟩⟩

theorem Sound.congr (same : x1.lookup = x.lookup) (space : x1.space = x.space) (sound : Sound x call) :
    Sound x1 call := by
  cases call with
  | set name reader flags =>
    unfold Sound Crowded at *
    rw [same, space]
    exact sound
  | get _ _ => trivial
  | remove _ => trivial

theorem Undisturbed.congr (same : x1.lookup = x.lookup) (good : Undisturbed x call) : Undisturbed x1 call := by
  cases call with
  | set name reader flags =>
    unfold Undisturbed at *
    rw [same]
    exact good
  | get _ _ => trivial
  | remove _ => trivial

/-- A good call returns, and changes the attributes as a map. -/
theorem exec_spec (inv : Inv x) (wf : dev.WF) (group : Nat) (good : Good x call) :
    ∃ result dev' x', call.exec group dev x = .ok (result, dev', x') ∧ dev'.WF ∧ Inv x' ∧
      Correct x.lookup result x'.lookup call := by
  rcases lazyInit_spec inv wf group with ⟨eq, fresh⟩ | ⟨dev', x1, eq, wf', loaded, same, space, -⟩
  · obtain ⟨returns, correct⟩ := exec_enospc fresh eq call
    exact ⟨_, _, _, returns, wf, .inl fresh, correct⟩
  obtain ⟨result, x', returns, effect⟩ := exec_loaded eq loaded.layout (good.1.congr same space)
  have correct := effect.correct loaded.layout (good.2.congr same)
  rw [same] at correct
  exact ⟨_, _, _, returns, wf', .inr (effect.loaded loaded), correct⟩

/-! ### Runs -/

inductive Event
  | call (call : Call)
  /-- Something else happens to the file system and the device. -/
  | others

/-- A call that meets the condition and returns, or a step of the rest of the system. -/
inductive Step (group : Nat) : Device × Xattr → Event → Device × Xattr → Prop
  | call {s s' : Device × Xattr} {call : Call} {result : Except Error Answer} (good : Good s.2 call)
      (returns : call.exec group s.1 s.2 = .ok (result, s')) : Step group s (.call call) s'
  | others {s : Device × Xattr} {dev : Device} (wf : dev.WF) : Step group s .others (dev, s.2)

theorem Step.inv {s s' : Device × Xattr} {event : Event} (h : s.1.WF ∧ Inv s.2) (step : Step group s event s') :
    s'.1.WF ∧ Inv s'.2 := by
  cases step with
  | call good returns =>
    obtain ⟨_, dev', x', eq, wf, inv, -⟩ := exec_spec h.2 h.1 group good
    cases eq.symm.trans returns
    exact ⟨wf, inv⟩
  | others wf => exact ⟨wf, h.2⟩

/-- In every state that good calls lead to from an inode without attributes, a good call returns, and it
changes the attributes as a map from names to values. -/
theorem calls_refine_map {group : Nat} {dev0 : Device} {s : Device × Xattr} {events : List Event} (wf : dev0.WF)
    (run : Labelled.Run (Step group) (dev0, Xattr.new 0) events s) {call : Call} (good : Good s.2 call) :
    ∃ result s', call.exec group s.1 s.2 = .ok (result, s') ∧ Correct s.2.lookup result s'.2.lookup call := by
  have init : (dev0, new 0).1.WF ∧ Inv (dev0, new 0).2 := ⟨wf, .inl ⟨rfl, rfl, rfl, rfl⟩⟩
  obtain ⟨wf', inv⟩ := run.invariant (fun _ _ _ h step => step.inv h) init
  obtain ⟨result, dev', x', eq, -, -, correct⟩ := exec_spec inv wf' group good
  exact ⟨result, (dev', x'), eq, correct⟩

variable (c : UInt8)

theorem parsed_user : XattrNamespace.tryFromFullName [117, 115, 101, 114, 46, c] = some .user := rfl

theorem short_user : [117, 115, 101, 114, 46, c].length ≤ 255 := Nat.le_of_ble_eq_true rfl

/-- A name of one character in the namespace of the user. -/
def userName : XattrName := ⟨.user, [117, 115, 101, 114, 46, c], parsed_user c, short_user c⟩

/-- A call that replaces or creates an attribute. -/
def setUser (bytes : List UInt8) : Call := .set (userName c) ⟨bytes, bytes.length⟩ ⟨false, false⟩

/-- A device whose file system has two free blocks. -/
def smallDevice : Device := ⟨Ext2.twoGroups, fun _ _ => 0⟩

theorem smallDevice_wf : smallDevice.WF := ⟨Ext2.twoGroups_wf, rfl⟩

/-- An attribute that was set and replaced is removed. -/
theorem calls_refine_map_replaced : ∃ s s', Labelled.Run (Step 0) (smallDevice, Xattr.new 0)
      [.call (setUser 97 [1]), .call (setUser 97 [2, 3])] s ∧ s.2.lookup (userName 97) = some [2, 3] ∧
    (Call.remove (userName 97)).exec 0 s.1 s.2 = .ok (.ok .done, s') ∧ s'.2.lookup (userName 97) = none := by
  obtain ⟨⟨⟨_, r⟩, ⟨_, s⟩⟩, h, seen⟩ := exists_ok_of_map
    (x := do
      let r ← (setUser 97 [1]).exec 0 smallDevice (new 0)
      pure (r, ← (setUser 97 [2, 3]).exec 0 r.2.1 r.2.2))
    (f := fun x => (x.1.2.2.lookup (userName 97), x.2.2.2.lookup (userName 97))) (b := (some [1], some [2, 3]))
    (by decide +kernel)
  obtain ⟨_, set, h⟩ := bind_ok.mp h
  obtain ⟨_, replace, h⟩ := bind_ok.mp h
  cases h
  obtain ⟨first, second⟩ := Prod.mk.inj seen
  have good : Good (new 0) (setUser 97 [1]) :=
    ⟨⟨List.cons_ne_nil _ _, fun _ => by decide⟩, fun fault => absurd fault (lt_irrefl _)⟩
  have good' : Good r.2 (setUser 97 [2, 3]) :=
    ⟨⟨List.cons_ne_nil _ _, fun none => nomatch none.symm.trans first⟩, fun fault => absurd fault (lt_irrefl _)⟩
  have run : Labelled.Run (Step 0) (smallDevice, new 0) [.call (setUser 97 [1]), .call (setUser 97 [2, 3])] s :=
    .cons (.call good set) (.single (.call good' replace))
  obtain ⟨result, s', returns, ⟨-, rfl, eq⟩ | ⟨none, -⟩⟩ := calls_refine_map smallDevice_wf run
    (show Good s.2 (.remove (userName 97)) from ⟨trivial, trivial⟩)
  · exact ⟨s, s', run, second, returns, eq ▸ if_pos rfl⟩
  · cases none.symm.trans second

/-- The state a call leaves. -/
def after (s : Device × Xattr) (call : Call) : Res (Device × Xattr) := (call.exec 0 s.1 s.2).map (·.2)

/-- An empty value gets the offset of another value. Removing it forgets that value, and the next one
overwrites it. -/
theorem empty_value_loses_attribute : ∃ s s' : Device × Xattr,
    [setUser 97 [1], setUser 98 [], .remove (userName 98)].foldlM after (smallDevice, Xattr.new 0) = .ok s ∧
      (setUser 99 [2]).exec 0 s.1 s.2 = .ok (.ok .done, s') ∧
      s.2.lookup (userName 97) = some [1] ∧ s'.2.lookup (userName 97) = some [2] := by
  have seen : ([setUser 97 [1], setUser 98 [], .remove (userName 98)].foldlM after (smallDevice, new 0)).toOption.map
      (fun s => (s.2.lookup (userName 97), ((setUser 99 [2]).exec 0 s.1 s.2).toOption.map
        fun r => (r.1, r.2.2.lookup (userName 97)))) = some (some [1], some (.ok .done, some [2])) := by
    decide +kernel
  obtain ⟨s, run, both⟩ := exists_ok_of_map seen
  obtain ⟨first, second⟩ := Prod.mk.inj both
  obtain ⟨⟨result, s'⟩, call, pair⟩ := exists_ok_of_map second
  obtain ⟨rfl, value⟩ := Prod.mk.inj pair
  exact ⟨s, s', run, call, first, value⟩

end OmegaOsx.Ext2.Xattr
