import OmegaOsx.Exfat.Directory

/-!
# A failed rename

`rename` deletes the old dentry set before it makes the new one. Where a later step fails (the new name
cannot be encoded, the target directory has no room and cannot grow, the clock is out of range), the old
name is gone.
-/

namespace OmegaOsx.Exfat

open List Dentry Exfat.Tree Option

open MlsDisk (ok_bind bind_ok)
open Keeps (endState)

/-! ### The call -/

def isDotOrDotdot (name : String) : Bool := name == "." || name == ".."

def checkCornerCasesForRename (t : Tree) (oldIno existIno : Nat) : Res Unit :=
  let oldInodeIsDir := (t.inodes oldIno).inodeType = .dir
  let exist := t.inodes existIno
  if oldInodeIsDir ∧ exist.inodeType ≠ .dir then fail .enotdir ""
  else if oldInodeIsDir ∧ exist.numSubInodes ≠ 0 then fail .enotempty ""
  else if ¬ oldInodeIsDir ∧ exist.inodeType = .dir then fail .eisdir ""
  else .ok ()

/-- The inode of an existing new name, which must be one that can be replaced. -/
def existing (t : Tree) (oldIno target : Nat) (newName : String) : Res (Option Nat) :=
  match lookupByName t target newName false with
  | .ok existIno => do
    checkCornerCasesForRename t oldIno existIno
    pure (some existIno)
  | .error _ => .ok none

/-- The checks of `rename`: `none` if there is nothing to do, else the inode of the old name and that of
an existing new name. -/
def renameChecks (t : Tree) (self : Nat) (oldName : String) (target : Nat) (newName : String) :
    Res (Option (Nat × Option Nat)) :=
  if isDotOrDotdot oldName || isDotOrDotdot newName then fail .eisdir ""
  else if MAX_NAME_LENGTH < oldName.utf8ByteSize ∨ MAX_NAME_LENGTH < newName.utf8ByteSize then
    fail .enametoolong ""
  else if (t.inodes self).inodeType ≠ .dir ∨ (t.inodes target).inodeType ≠ .dir then fail .enotdir ""
  else if self = target ∧ t.toUppercase oldName = t.toUppercase newName then .ok none
  else do
    let oldIno ← lookupByName t self oldName true
    let exist ← existing t oldIno target newName
    pure (some (oldIno, exist))

def copyMetadataFrom (ino newIno : Nat) : Act Unit := do
  let other := (← get).inodes newIno
  updateInode ino fun inner =>
    { inner with
      dentryEntry := other.dentryEntry
      numDentries := other.numDentries
      name := other.name
      isDeleted := other.isDeleted }

/-- `update_subdir_parent_hash`; the hashes themselves are positions, which the model does not need. -/
def updateSubdirParentHash (ino : Nat) : Act Unit := do
  let t ← get
  if (t.inodes ino).inodeType ≠ .dir then pure ()
  else do
    let children ← liftRes (visitSubInodes t ino (t.inodes ino).numSubInodes)
    children.forM fun (_, entry, _) => do
      let _ ← liftRes ((t.inodes ino).startChain.walkToClusterAtOffset t.fs (entry * DENTRY_SIZE))

/-- `insert_inode`: lookup now finds the inode at its dentry set. -/
def insertInode (dir ino : Nat) : Act Unit := do
  let entry := ((← get).inodes ino).dentryEntry
  updateInode dir fun inner => { inner with dentries := inner.dentries.set entry (.file ino) }

/-- Removes an existing file of the new name. -/
def removeExisting (target : Nat) : Option Nat → Act Unit
  | some existIno => deleteInode target existIno true
  | none => pure ()

/-- The rest of `rename`, once all checks are done. -/
def renameChecked (self target : Nat) (newName : String) (oldIno : Nat) (exist : Option Nat) : Act Unit := do
  deleteInode self oldIno false
  let newIno ← addEntry target newName ((← get).inodes oldIno).inodeType
  copyMetadataFrom oldIno newIno
  updateSubdirParentHash oldIno
  insertInode target oldIno
  removeExisting target exist
  if (← get).clockValid then pure () else raise .einval "failed to parse date time."

def rename (self : Nat) (oldName : String) (target : Nat) (newName : String) : Act Unit := do
  match ← liftRes (renameChecks (← get) self oldName target newName) with
  | none => pure ()
  | some (oldIno, exist) => renameChecked self target newName oldIno exist

/-! ### What lookup finds -/

/-- A file dentry stands at the entry its inode has noted, in one directory only, and inode numbers are
handed out once. -/
structure Tree.WF (t : Tree) : Prop where
  noted : ∀ {dir i ino : Nat}, (t.inodes dir).dentries[i]? = some (Dentry.file ino) →
    (t.inodes ino).dentryEntry = i ∧ 0 < (t.inodes ino).numDentries
  known : ∀ {dir i ino : Nat}, (t.inodes dir).dentries[i]? = some (Dentry.file ino) → ino < t.nextIno
  single : ∀ {dir dir' i j ino : Nat}, (t.inodes dir).dentries[i]? = some (Dentry.file ino) →
    (t.inodes dir').dentries[j]? = some (Dentry.file ino) → dir = dir'

variable {dentries : List Dentry} {count : Nat} {t : Tree} {entry self target : Nat}

theorem visit_mem {skip : Nat} {found : List (String × Nat × Nat)}
    (h : visit t dentries entry skip count = .ok found) :
    ∀ child ∈ found, file child.2.2 ∈ dentries ∧ (t.inodes child.2.2).name = child.1 := by
  induction dentries generalizing entry skip count found with
  | nil =>
    cases count with
    | zero =>
      cases h
      simp
    | succ count => cases h
  | cons dentry rest ih =>
    have later : ∀ {entry skip count found}, visit t rest entry skip count = .ok found →
        ∀ child ∈ found, file child.2.2 ∈ dentry :: rest ∧ (t.inodes child.2.2).name = child.1 :=
      fun h child mem => ⟨mem_cons_of_mem _ (ih h child mem).1, (ih h child mem).2⟩
    cases count with
    | zero =>
      cases h
      simp
    | succ count =>
      cases skip with
      | succ skip => exact later h
      | zero =>
        cases dentry with
        | file ino =>
          obtain ⟨others, rest_, h⟩ := bind_ok.mp h
          cases h
          intro child mem
          rcases mem_cons.mp mem with rfl | mem
          · exact ⟨mem_cons_self, rfl⟩
          · exact later rest_ child mem
        | _ => exact later h

variable {dir ino : Nat} {name : String}

theorem lookupByName_ok (h : lookupByName t dir name true = .ok ino) :
    file ino ∈ (t.inodes dir).dentries ∧ (t.inodes ino).name = name := by
  obtain ⟨found, visited, h⟩ := bind_ok.mp h
  unfold visitSubInodes at visited
  split at visited
  · cases visited
  split at h
  · next name' entry ino' eq =>
    cases h
    obtain ⟨inDir, named⟩ := visit_mem visited _ (mem_of_find?_eq_some eq)
    have same := find?_some eq
    simp only [beq_iff_eq] at same
    exact ⟨inDir, named.trans same⟩
  · cases h

/-! ### Steps that add no file -/

/-- An inode keeps its place and name, and its directory has no file that it had not. -/
structure Shrinks (inner inner' : ExfatInode) : Prop where
  name : inner'.name = inner.name
  dentryEntry : inner'.dentryEntry = inner.dentryEntry
  numDentries : inner'.numDentries = inner.numDentries
  files : ∀ {i ino : Nat}, inner'.dentries[i]? = some (Dentry.file ino) →
    inner.dentries[i]? = some (Dentry.file ino)

/-- A property of trees that lasts while no file is added, moved or renamed. -/
structure Stable (P : Tree → Prop) : Prop where
  fs : ∀ {t : Tree} (fs : ExfatFs), P t → P { t with fs }
  inode : ∀ {t : Tree} {ino : Nat} {f : ExfatInode → ExfatInode},
    Shrinks (t.inodes ino) (f (t.inodes ino)) → P t → P (t.setInode ino f)

variable {i oldIno : Nat} {oldName : String}

theorem getElem?_deleteSet (h : (deleteSet dentries entry count)[i]? = some (file ino)) :
    dentries[i]? = some (file ino) ∧ ¬ (entry ≤ i ∧ i < entry + count) := by
  unfold deleteSet at h
  rw [getElem?_mapIdx] at h
  obtain ⟨dentry, at_, eq⟩ := map_eq_some_iff.mp h
  split at eq
  · unfold markDeleted at eq
    split at eq <;> cases eq
  · next out => exact ⟨eq ▸ at_, out⟩

variable {P : Tree → Prop}

theorem keeps_liftRes {α : Type} (r : Res α) : Keeps P (liftRes r) := by
  cases r with
  | ok a => exact .pure a
  | error e => exact .throw e

theorem keeps_onlyIf {c : Prop} [Decidable c] {act : Act Unit} (h : Keeps P act) :
    Keeps P (onlyIf c act) := .ite h (.pure ())

namespace Stable

section

variable (stable : Stable P)

include stable

theorem keeps_findEmptyDentries (dir numDentries : Nat) : Keeps P (findEmptyDentries dir numDentries) := by
  refine .get_bind fun t _ => ?_
  dsimp only
  split
  · exact .pure _
  refine .ite (.throw _) (.bind (keeps_liftRes _) fun extended => .bind (.modify fun s h => stable.fs _ h) fun _ => ?_)
  refine .bind (.modify fun s h => stable.inode ⟨rfl, rfl, rfl, fun {i ino} at_ => ?_⟩ h) fun _ => .pure _
  rw [getElem?_append] at at_
  split at at_
  · exact at_
  · cases eq_of_mem_replicate (mem_of_getElem? at_)

theorem keeps_resizeToZero (ino : Nat) : Keeps P (resizeToZero ino) := by
  refine .get_bind fun t _ => .bind (keeps_onlyIf ?_) fun _ =>
    .modify fun s h => stable.inode ⟨rfl, rfl, rfl, fun at_ => ?_⟩ h
  · exact .bind (keeps_liftRes _) fun removed => .bind (.modify fun s h => stable.fs _ h) fun _ =>
      .modify fun s h => stable.inode ⟨rfl, rfl, rfl, id⟩ h
  · cases at_

theorem keeps_deleteContents (ino : Nat) : Keeps P (deleteContents ino) :=
  .get_bind fun _ _ => .bind (keeps_onlyIf (stable.keeps_resizeToZero ino)) fun _ =>
    .modify fun _ h => stable.inode ⟨rfl, rfl, rfl, id⟩ h

theorem keeps_deleteInode (dir ino : Nat) (contents : Bool) : Keeps P (deleteInode dir ino contents) := by
  refine .get_bind fun t _ => .bind (keeps_onlyIf (stable.keeps_deleteContents ino)) fun _ => .get_bind fun s _ => ?_
  refine .bind (.modify fun s h => stable.inode
    ⟨rfl, rfl, rfl, fun at_ => (getElem?_deleteSet at_).1⟩ h) fun _ => ?_
  exact .get_bind fun s _ => .ite (.throw _) (.modify fun s h => stable.inode ⟨rfl, rfl, rfl, id⟩ h)

theorem keeps_removeExisting (target : Nat) (exist : Option Nat) : Keeps P (removeExisting target exist) := by
  cases exist with
  | none => exact .pure ()
  | some ino => exact stable.keeps_deleteInode target ino true

end

end Stable

theorem keeps_updateSubdirParentHash (ino : Nat) : Keeps P (updateSubdirParentHash ino) := by
  refine .get_bind fun t _ => .ite (.pure ()) (.bind (keeps_liftRes _) fun children => ?_)
  exact .forM (fun child => .bind (keeps_liftRes _) fun _ => .pure ()) children

/-! ### The old name is gone -/

/-- No dentry of a directory stands for an inode. -/
def Gone (dir ino : Nat) (t : Tree) : Prop := ino < t.nextIno ∧ Dentry.file ino ∉ (t.inodes dir).dentries

/-- An inode has a name. -/
def Named (ino : Nat) (name : String) (t : Tree) : Prop := (t.inodes ino).name = name

/-- A dentry that stands for the inode shows another name. -/
def Lost (dir ino : Nat) (name : String) (t : Tree) : Prop :=
  Dentry.file ino ∈ (t.inodes dir).dentries → (t.inodes ino).name ≠ name

variable {old : Nat}

theorem Gone.lost (h : Gone dir old t) (name : String) : Lost dir old name t := fun mem => absurd mem h.2

theorem Named.lost (h : Named old name t) {other : String} (ne : name ≠ other) : Lost dir old other t :=
  fun _ eq => ne (h.symm.trans eq)

theorem inodes_setInode (t : Tree) (ino : Nat) (f : ExfatInode → ExfatInode) (k : Nat) :
    (t.setInode ino f).inodes k = if k = ino then f (t.inodes ino) else t.inodes k :=
  Function.update_apply t.inodes ino _ k

theorem Gone.setInode (h : Gone dir old t) {f : ExfatInode → ExfatInode}
    (fewer : dir = ino → file old ∈ (f (t.inodes ino)).dentries → file old ∈ (t.inodes ino).dentries) :
    Gone dir old (t.setInode ino f) := by
  refine ⟨h.1, fun mem => h.2 ?_⟩
  rw [inodes_setInode] at mem
  split at mem
  · next eq => exact eq ▸ fewer eq mem
  · exact mem

theorem Gone.stable (dir old : Nat) : Stable (Gone dir old) where
  fs _ h := h
  inode shrinks h := h.setInode fun _ mem => by
    obtain ⟨i, at_⟩ := mem_iff_getElem?.mp mem
    exact mem_of_getElem? (shrinks.files at_)

theorem Named.stable (old : Nat) (name : String) : Stable (Named old name) where
  fs _ h := h
  inode {t ino f} shrinks h := by
    unfold Named
    rw [inodes_setInode]
    split
    · next eq => exact shrinks.name.trans (eq ▸ h)
    · exact h

/-- Once the dentry set of an inode is deleted, no directory holds it. -/
theorem gone_deleteInode (wf : t.WF) (present : file old ∈ (t.inodes self).dentries) (dir : Nat) :
    Gone dir old (endState (deleteInode self old false) t) := by
  obtain ⟨i, known⟩ := mem_iff_getElem?.mp present
  have gone : Gone dir old (t.setInode self fun inner =>
      { inner with dentries := deleteSet inner.dentries (t.inodes old).dentryEntry (t.inodes old).numDentries }) := by
    refine ⟨wf.known known, fun mem => ?_⟩
    rw [inodes_setInode] at mem
    obtain ⟨j, at_⟩ := mem_iff_getElem?.mp mem
    split at at_
    · obtain ⟨was, out⟩ := getElem?_deleteSet at_
      obtain ⟨here, some_⟩ := wf.noted was
      exact out ⟨here.le, by omega⟩
    · next other => exact other (wf.single at_ known)
  have rest : ∀ isDir : Prop, [Decidable isDir] → Keeps (Gone dir old) (do
      let inner := (← get).inodes self
      if inner.numSubInodes < 1 ∨ isDir ∧ inner.numSubDirs < 1 then crash "attempt to subtract with overflow"
      else
        updateInode self fun inner =>
          { inner with
            numSubInodes := inner.numSubInodes - 1
            numSubDirs := inner.numSubDirs - (if isDir then 1 else 0) }) := by
    intro isDir _
    exact .get_bind fun s _ => .ite (.throw _) (.modify fun s h => h.setInode fun _ => id)
  exact rest _ _ gone

/-! ### Adding the new set -/

/-- The tree with a new file, as `addSet` leaves it. -/
def Tree.added (t : Tree) (dir : Nat) (name : String) (inodeType : InodeType) (entry count ino : Nat) : Tree :=
  (Tree.setInode { t with nextIno := ino + 1 } ino fun _ => newInode name inodeType entry count).setInode dir
    fun inner =>
      { inner with
        dentries := writeSet inner.dentries entry count ino
        numSubInodes := inner.numSubInodes + 1
        numSubDirs := inner.numSubDirs + (if inodeType = .dir then 1 else 0) }

theorem endState_addSet (t : Tree) (dir : Nat) (name : String) (inodeType : InodeType) (entry count ino : Nat) :
    endState (addSet dir name inodeType entry count ino) t = t.added dir name inodeType entry count ino := by
  have rest : Keeps (· = t.added dir name inodeType entry count ino) (do
      let t ← get
      let _ ← liftRes ((t.inodes dir).startChain.walkToClusterAtOffset t.fs (entry * DENTRY_SIZE))
      pure ino) := .get_bind fun s _ => .bind (keeps_liftRes _) fun _ => .pure _
  exact rest _ rfl

theorem getElem?_writeSet {k : Nat} (h : (writeSet dentries entry count ino)[i]? = some (file k)) :
    k = ino ∧ i = entry ∨ dentries[i]? = some (file k) := by
  unfold writeSet at h
  rw [getElem?_mapIdx] at h
  obtain ⟨dentry, at_, eq⟩ := map_eq_some_iff.mp h
  split at eq
  · next here => exact .inl ⟨(file.inj eq).symm, here⟩
  · split at eq
    · cases eq
    · exact .inr (eq ▸ at_)

section Added

variable {inodeType : InodeType}

/-- A file of the tree is the new one or was there before. -/
theorem file_added {d i k : Nat}
    (h : ((t.added dir name inodeType entry count ino).inodes d).dentries[i]? = some (file k)) :
    (k = ino ∧ i = entry ∧ d = dir) ∨ (t.inodes d).dentries[i]? = some (file k) := by
  have old : ∀ {d : Nat}, ((setInode { t with nextIno := ino + 1 } ino
      fun _ => newInode name inodeType entry count).inodes d).dentries[i]? = some (file k) →
      (t.inodes d).dentries[i]? = some (file k) := by
    intro d at_
    rw [inodes_setInode] at at_
    split at at_
    · cases at_
    · exact at_
  unfold added at h
  rw [inodes_setInode] at h
  split at h
  · next here =>
    rcases getElem?_writeSet h with ⟨rfl, rfl⟩ | at_
    · exact .inl ⟨rfl, rfl, here⟩
    · exact .inr (here ▸ old at_)
  · exact .inr (old h)

theorem place_added (t : Tree) (dir : Nat) (name : String) (inodeType : InodeType) (entry count ino k : Nat) :
    let inode := (t.added dir name inodeType entry count ino).inodes k
    let place := if k = ino then newInode name inodeType entry count else t.inodes k
    inode.name = place.name ∧ inode.dentryEntry = place.dentryEntry ∧ inode.numDentries = place.numDentries := by
  unfold added
  simp only [inodes_setInode]
  rcases eq_or_ne k dir with rfl | other
  · simp
  · simp [other]

theorem Gone.added {d : Nat} (h : Gone d old t) (fresh : old < ino) :
    Gone d old (t.added dir name inodeType entry count ino) := by
  refine ⟨Nat.lt_succ_of_lt fresh, fun mem => ?_⟩
  obtain ⟨i, at_⟩ := mem_iff_getElem?.mp mem
  rcases file_added at_ with ⟨rfl, -, -⟩ | was
  · exact lt_irrefl _ fresh
  · exact h.2 (mem_of_getElem? was)

end Added

theorem dentrySetFrom_pos {clockValid : Bool} (h : dentrySetFrom clockValid name = .ok count) : 0 < count := by
  unfold dentrySetFrom at h
  dsimp only at h
  split at h
  · cases h
  split at h
  · cases h
  split at h
  · cases h
  split at h
  · cases h
  · cases h
    exact Nat.succ_pos _

theorem keeps_addEntry_gone (d old dir : Nat) (name : String) (inodeType : InodeType) :
    Keeps (Gone d old) (addEntry dir name inodeType) := by
  refine .ite (.throw _) (.bind ((Gone.stable d old).keeps_findEmptyDentries _ _) fun entry => .get_bind fun t h => ?_)
  refine .bind (keeps_liftRes _) fun count => fun s gone => ?_
  rw [endState_addSet]
  exact gone.added h.1

/-- The inode of a new file has its name, and a set of at least one dentry. -/
theorem addEntry_ok {t' : Tree} {inodeType : InodeType} (h : (addEntry dir name inodeType).run t = .ok ino t') :
    (t'.inodes ino).name = name ∧ 0 < (t'.inodes ino).numDentries := by
  unfold addEntry at h
  split at h
  · cases h
  obtain ⟨entry, t1, -, h⟩ := Keeps.of_run_bind_ok h
  rw [MlsDisk.run_get_bind] at h
  cases set : dentrySetFrom t1.clockValid name with
  | error e =>
    rw [set] at h
    cases h
  | ok count =>
    rw [set] at h
    replace h : (addSet dir name inodeType entry count t1.nextIno).run t1 = .ok ino t' := h
    have state := Keeps.endState_of_ok h
    rw [endState_addSet] at state
    have eq : ino = t1.nextIno := by
      obtain ⟨_, _, -, h⟩ := Keeps.of_run_bind_ok h
      obtain ⟨_, _, -, h⟩ := Keeps.of_run_bind_ok h
      obtain ⟨_, _, -, h⟩ := Keeps.of_run_bind_ok h
      obtain ⟨_, _, -, h⟩ := Keeps.of_run_bind_ok h
      obtain ⟨_, _, -, h⟩ := Keeps.of_run_bind_ok h
      cases h
      rfl
    obtain ⟨named, -, num⟩ := place_added t1 dir name inodeType entry count t1.nextIno t1.nextIno
    rw [if_pos rfl] at named num
    rw [← state, eq]
    exact ⟨named, num ▸ dentrySetFrom_pos set⟩

/-! ### After the deletion -/

theorem endState_copyMetadataFrom (t : Tree) (ino newIno : Nat) :
    endState (copyMetadataFrom ino newIno) t = t.setInode ino fun inner =>
      { inner with
        dentryEntry := (t.inodes newIno).dentryEntry
        numDentries := (t.inodes newIno).numDentries
        name := (t.inodes newIno).name
        isDeleted := (t.inodes newIno).isDeleted } := rfl

/-- The tree with an inode put at its entry, as `insertInode` leaves it. -/
def Tree.placed (t : Tree) (dir ino : Nat) : Tree :=
  t.setInode dir fun inner =>
    { inner with dentries := inner.dentries.set (t.inodes ino).dentryEntry (.file ino) }

theorem endState_insertInode (t : Tree) (dir ino : Nat) : endState (insertInode dir ino) t = t.placed dir ino := rfl

/-- The end of `rename` keeps what lasts while no file is added. -/
theorem Stable.keeps_end (stable : Stable P) (target : Nat) (exist : Option Nat) : Keeps P (do
      removeExisting target exist
      if (← get).clockValid then pure () else raise .einval "failed to parse date time.") :=
  .bind (stable.keeps_removeExisting target exist) fun _ => .get_bind fun _ _ => .ite (.pure ()) (.throw _)

section RenameChecked

variable {newName : String} {exist : Option Nat}

/-- Between two directories, the old one never holds the inode again. -/
theorem gone_renameChecked (wf : t.WF) (present : file old ∈ (t.inodes self).dentries) (ne : self ≠ target) :
    Gone self old (endState (renameChecked self target newName old exist) t) := by
  refine Keeps.endState_bind (gone_deleteInode wf present self) fun _ => .get_bind fun s _ => ?_
  refine .bind (keeps_addEntry_gone _ _ _ _ _) fun newIno => .bind ?_ fun _ => ?_
  · intro s gone
    rw [endState_copyMetadataFrom]
    exact gone.setInode fun _ => id
  refine .bind (keeps_updateSubdirParentHash _) fun _ => .bind ?_ fun _ => (Gone.stable _ _).keeps_end target exist
  intro s gone
  rw [endState_insertInode]
  exact gone.setInode fun eq => absurd eq ne

/-- Once the metadata of the new set is copied, the inode has the new name. -/
theorem named_afterAdd {newIno : Nat} (named : (t.inodes newIno).name = newName) :
    Named old newName (endState (do
      copyMetadataFrom old newIno
      updateSubdirParentHash old
      insertInode target old
      removeExisting target exist
      if (← get).clockValid then pure () else raise .einval "failed to parse date time.") t) := by
  refine Keeps.endState_bind ?_ fun _ => .bind (keeps_updateSubdirParentHash _) fun _ => .bind ?_ fun _ =>
    (Named.stable _ _).keeps_end target exist
  · rw [endState_copyMetadataFrom]
    unfold Named
    rw [inodes_setInode, if_pos rfl]
    exact named
  · intro s h
    unfold Named at h ⊢
    rw [endState_insertInode, placed, inodes_setInode]
    split
    · next eq => exact eq ▸ h
    · exact h

/-- Where the code ends after the deletion, the old name does not lead to the inode. -/
theorem lost_renameChecked (wf : t.WF) (present : file old ∈ (t.inodes self).dentries)
    (differ : self = target → newName ≠ oldName) :
    Lost self old oldName (endState (renameChecked self target newName old exist) t) := by
  rcases ne_or_eq self target with ne | eq
  · exact (gone_renameChecked wf present ne).lost _
  have deleted := gone_deleteInode wf present self
  refine Keeps.endState_bind_ok (deleted.lost _) fun _ t1 run => ?_
  rw [Keeps.endState_of_ok run] at deleted
  have afterAdd := keeps_addEntry_gone self old target newName (t1.inodes old).inodeType t1 deleted
  rw [Keeps.endState_get_bind]
  refine Keeps.endState_bind_ok (afterAdd.lost _) fun newIno t2 run => ?_
  exact (named_afterAdd (addEntry_ok run).1).lost (differ eq)

end RenameChecked

/-! ### Whole calls -/

/-- An existing file cannot be replaced by the old one. -/
def NotReplaceable (t : Tree) (oldIno existIno : Nat) : Prop :=
  ((t.inodes oldIno).inodeType = .dir ∧
    ((t.inodes existIno).inodeType ≠ .dir ∨ (t.inodes existIno).numSubInodes ≠ 0)) ∨
  ((t.inodes oldIno).inodeType ≠ .dir ∧ (t.inodes existIno).inodeType = .dir)

/-- A request that `rename` turns down before it changes anything. -/
def Refused (t : Tree) (self : Nat) (oldName : String) (target : Nat) (newName : String) : Prop :=
  isDotOrDotdot oldName ∨ isDotOrDotdot newName ∨
  MAX_NAME_LENGTH < oldName.utf8ByteSize ∨ MAX_NAME_LENGTH < newName.utf8ByteSize ∨
  (t.inodes self).inodeType ≠ .dir ∨ (t.inodes target).inodeType ≠ .dir ∨
  (¬ (self = target ∧ t.toUppercase oldName = t.toUppercase newName) ∧
    ((∀ oldIno, lookupByName t self oldName true ≠ .ok oldIno) ∨
      ∃ oldIno existIno, lookupByName t self oldName true = .ok oldIno ∧
        lookupByName t target newName false = .ok existIno ∧ NotReplaceable t oldIno existIno))

theorem checkCornerCases_error {existIno : Nat} :
    (∃ e, checkCornerCasesForRename t oldIno existIno = .error e) ↔ NotReplaceable t oldIno existIno := by
  unfold checkCornerCasesForRename NotReplaceable
  simp only [fail]
  by_cases isDir : (t.inodes oldIno).inodeType = .dir <;>
    by_cases existDir : (t.inodes existIno).inodeType = .dir <;>
      by_cases empty : (t.inodes existIno).numSubInodes = 0 <;> simp [isDir, existDir, empty]

variable {newName : String}

theorem existing_error : (∃ e, existing t oldIno target newName = .error e) ↔
      ∃ existIno, lookupByName t target newName false = .ok existIno ∧ NotReplaceable t oldIno existIno := by
  unfold existing
  cases lookupByName t target newName false with
  | error e => simp
  | ok existIno =>
    simp only [Except.ok.injEq, exists_eq_left', ← checkCornerCases_error]
    cases checkCornerCasesForRename t oldIno existIno with
    | error e => simp [bind, Except.bind]
    | ok _ => simp [bind, Except.bind, pure, Except.pure]

theorem lookups_error : (∃ e, (do
      let oldIno ← lookupByName t self oldName true
      let exist ← existing t oldIno target newName
      pure (some (oldIno, exist)) : Res (Option (Nat × Option Nat))) = .error e) ↔
      ((∀ oldIno, lookupByName t self oldName true ≠ .ok oldIno) ∨
        ∃ oldIno existIno, lookupByName t self oldName true = .ok oldIno ∧
          lookupByName t target newName false = .ok existIno ∧ NotReplaceable t oldIno existIno) := by
  cases lookupByName t self oldName true with
  | error e => simp [bind, Except.bind]
  | ok oldIno =>
    simp only [Except.ok.injEq, exists_and_left, exists_eq_left', ← existing_error, ok_bind]
    cases existing t oldIno target newName with
    | error e => simp [bind, Except.bind]
    | ok exist => simp [bind, Except.bind, pure, Except.pure]

theorem refused_iff :
    Refused t self oldName target newName ↔ ∃ e, renameChecks t self oldName target newName = .error e := by
  unfold Refused renameChecks
  rw [← lookups_error]
  by_cases dots : (isDotOrDotdot oldName || isDotOrDotdot newName) = true
  · rw [if_pos dots]
    rw [Bool.or_eq_true] at dots
    exact ⟨fun _ => ⟨_, rfl⟩, fun _ => dots.elim .inl fun h => .inr (.inl h)⟩
  rw [if_neg dots]
  by_cases long : MAX_NAME_LENGTH < oldName.utf8ByteSize ∨ MAX_NAME_LENGTH < newName.utf8ByteSize
  · rw [if_pos long]
    exact ⟨fun _ => ⟨_, rfl⟩, fun _ => by tauto⟩
  rw [if_neg long]
  by_cases file : (t.inodes self).inodeType ≠ .dir ∨ (t.inodes target).inodeType ≠ .dir
  · rw [if_pos file]
    exact ⟨fun _ => ⟨_, rfl⟩, fun _ => by tauto⟩
  rw [if_neg file]
  rw [Bool.or_eq_true] at dots
  by_cases same : self = target ∧ t.toUppercase oldName = t.toUppercase newName
  · rw [if_pos same]
    refine ⟨by tauto, ?_⟩
    rintro ⟨e, h⟩
    cases h
  rw [if_neg same]
  exact ⟨by tauto, by tauto⟩

section Rename

variable {t t' : Tree} {self target : Nat} {oldName newName : String}

/-- What a request that is carried out has found. -/
theorem renameChecks_ok {oldIno : Nat} {exist : Option Nat}
    (h : renameChecks t self oldName target newName = .ok (some (oldIno, exist))) :
    lookupByName t self oldName true = .ok oldIno ∧ (self = target → newName ≠ oldName) := by
  unfold renameChecks at h
  split at h
  · cases h
  split at h
  · cases h
  split at h
  · cases h
  split at h
  · cases h
  · next differ =>
    obtain ⟨found, lookup, h⟩ := bind_ok.mp h
    obtain ⟨exist', -, h⟩ := bind_ok.mp h
    cases h
    exact ⟨lookup, fun same eq => differ ⟨same, eq ▸ rfl⟩⟩

theorem rename_of_checks {r : Res (Option (Nat × Option Nat))} (h : renameChecks t self oldName target newName = r) :
    (rename self oldName target newName).run t = (do
      match ← liftRes r with
      | none => pure ()
      | some (oldIno, exist) => renameChecked self target newName oldIno exist).run t := by
  rw [← h]
  rfl

/-- A rename that returns an error leaves the names of both directories as they were exactly if it was
refused before the old dentry set was deleted. -/
theorem rename_error_iff {e : Errno} {msg : String} (wf : t.WF)
    (h : (rename self oldName target newName).run t = .error (.errno e msg) t') :
    (∀ dir, dir = self ∨ dir = target → ∀ name ino,
      lookupByName t' dir name true = .ok ino ↔ lookupByName t dir name true = .ok ino) ↔
    Refused t self oldName target newName := by
  rw [refused_iff]
  cases checks : renameChecks t self oldName target newName with
  | error fault =>
    rw [rename_of_checks checks] at h
    cases h
    exact ⟨fun _ => ⟨_, rfl⟩, fun _ dir _ name ino => Iff.rfl⟩
  | ok found =>
    rw [rename_of_checks checks] at h
    constructor
    · intro same
      cases found with
      | none => cases h
      | some found =>
        obtain ⟨lookup, differ⟩ := renameChecks_ok checks
        have lost : Lost self found.1 oldName (endState (renameChecked self target newName found.1 found.2) t) :=
          lost_renameChecked wf (lookupByName_ok lookup).1 differ
        replace h : (renameChecked self target newName found.1 found.2).run t = _ := h
        unfold endState at lost
        rw [h] at lost
        obtain ⟨mem, named⟩ := lookupByName_ok ((same self (.inl rfl) oldName found.1).mpr lookup)
        exact absurd named (lost mem)
    · rintro ⟨fault, refused⟩
      cases refused

end Rename

namespace SmallVolume

/-- A root directory with the file `a`. -/
def tree : Tree where
  fs := fs
  inodes
    | 0 =>
      { inodeType := .dir, name := "", dentryEntry := 0, numDentries := 0
        startChain := ⟨5, 1, ALLOC_POSSIBLE⟩, numSubInodes := 1, numSubDirs := 0, isDeleted := false
        dentries := [.file 1, .secondary, .secondary] ++ List.replicate 13 .unused }
    | _ => newInode "a" .file 0 3
  nextIno := 2
  clockValid := true
  toUppercase := String.toUpper

theorem file_tree {i : Nat} (at_ : (tree.inodes dir).dentries[i]? = some (file ino)) : dir = 0 ∧
    i = 0 ∧ ino = 1 := by
  cases dir with
  | zero =>
    have all : ∀ k, k < 16 → ∀ dentry, (tree.inodes 0).dentries[k]? = some dentry →
        dentry = .file 1 ∧ k = 0 ∨ dentry = .secondary ∨ dentry = .unused := by decide +kernel
    have lt : i < 16 := (List.getElem?_eq_some_iff.mp at_).1
    rcases all i lt _ at_ with ⟨eq, here⟩ | eq | eq
    · cases eq
      exact ⟨rfl, here, rfl⟩
    · cases eq
    · cases eq
  | succ dir => cases at_

theorem wf_tree : tree.WF where
  noted at_ := by
    obtain ⟨-, rfl, rfl⟩ := file_tree at_
    exact ⟨rfl, Nat.succ_pos 2⟩
  known at_ := by
    obtain ⟨-, -, rfl⟩ := file_tree at_
    exact Nat.lt_succ_self 1
  single at_ at' := (file_tree at_).1.trans (file_tree at').1.symm

/-- What a failed call returns and the tree it leaves. -/
def failure : EStateM.Result Fault Tree Unit → Option (Fault × Tree)
  | .error e t => some (e, t)
  | .ok _ _ => none

theorem exists_failure {α : Type} {r : EStateM.Result Fault Tree Unit} {f : Fault × Tree → α} {a : α}
    (h : (failure r).map f = some a) : ∃ e t, r = .error e t ∧ f (e, t) = a := by
  cases r with
  | ok _ _ => cases h
  | error e t => exact ⟨e, t, rfl, some.inj h⟩

end SmallVolume

open SmallVolume in
/-- A missing file is noticed by the checks. -/
theorem rename_error_iff_missing : ∃ t', (rename 0 "x" 0 "y").run tree = .error (.errno .enoent "") t' ∧
    Refused tree 0 "x" 0 "y" ∧
    ∀ name ino, lookupByName t' 0 name true = .ok ino ↔ lookupByName tree 0 name true = .ok ino := by
  obtain ⟨e, t', run, rfl⟩ := exists_failure (r := (rename 0 "x" 0 "y").run tree) (f := Prod.fst)
    (a := .errno .enoent "") (by decide +kernel)
  have refused : Refused tree 0 "x" 0 "y" := refused_iff.mpr ⟨.errno .enoent "", by decide +kernel⟩
  exact ⟨t', run, refused, (rename_error_iff wf_tree run).mpr refused 0 (.inl rfl)⟩

open SmallVolume in
/-- The new name holds a character that is not allowed: the call fails once the old dentry set is
deleted. -/
theorem rename_invalid_name : tree.WF ∧
    ∃ t', (rename 0 "a" 0 "b?").run tree = .error (.errno .einval "invalid file name.") t' ∧
      lookupByName tree 0 "a" true = .ok 1 ∧ lookupByName t' 0 "a" true = .error (.errno .enoent "") := by
  obtain ⟨e, t', run, eq⟩ := exists_failure (r := (rename 0 "a" 0 "b?").run tree)
    (f := fun r => (r.1, lookupByName r.2 0 "a" true))
    (a := (.errno .einval "invalid file name.", .error (.errno .enoent ""))) (by decide +kernel)
  obtain ⟨rfl, gone⟩ := Prod.mk.inj eq
  exact ⟨wf_tree, t', run, by decide +kernel, gone⟩

end OmegaOsx.Exfat
