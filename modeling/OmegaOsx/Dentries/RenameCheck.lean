import Mathlib.Data.List.Basic

/-!
# The path check of `rename`

`sys_renameat2` compares the absolute paths of the old file and of the new name as strings. A path is given by the
names from the root down, those of the mount points in the place of mounted roots (`effective_name`).

`checkPaths_iff` says when the check is right: unless the new parent is not the root and the new path has, in the
place of the old path's last name, another name that begins with it.
-/

namespace OmegaOsx.Dentries

open List

abbrev Name := { name : List Char // name ≠ [] ∧ '/' ∉ name }

/-- The loop of `abs_path` over the names of the ancestors, the nearest one first. -/
def absPathFrom (pathName : List Char) : List (List Char) → List Char
  | [] => pathName
  | parentName :: ancestors =>
    absPathFrom (if parentName ≠ ['/'] then parentName ++ ['/'] ++ pathName else parentName ++ pathName) ancestors

def absPath (path : List Name) : List Char :=
  match path.reverse.map (·.1) with
  | [] => ['/']
  | name :: parents => absPathFrom name (parents ++ [['/']])

/-- Whether the call returns with success here. The error has the message that goes with `EINVAL`. -/
def checkPaths (old newDir : List Name) (newName : Name) : Except String Bool :=
  let newAbsPath := absPath newDir ++ ['/'] ++ newName
  if absPath old <+: newAbsPath then
    if newAbsPath.length = (absPath old).length then .ok true
    else .error "the new path contains a path prefix of the old path"
  else .ok false

/-! ### Absolute paths -/

/-- The names of a path, each behind a slash. -/
@[simp] def slashed : List Name → List Char
  | [] => []
  | name :: path => '/' :: (name ++ slashed path)

@[simp] theorem slashed_append (path rest : List Name) : slashed (path ++ rest) = slashed path ++ slashed rest := by
  induction path with
  | nil => rfl
  | cons name path ih => simp [ih]

theorem absPathFrom_eq (pathName : List Char) (parents : List Name) :
    absPathFrom pathName (parents.map (·.1) ++ [['/']]) = slashed parents.reverse ++ '/' :: pathName := by
  induction parents generalizing pathName with
  | nil => rfl
  | cons parent parents ih =>
    have notRoot : parent.1 ≠ ['/'] := fun eq => parent.2.2 (by simp [eq])
    rw [map_cons, cons_append, absPathFrom, if_pos notRoot, ih]
    simp

theorem absPath_concat (dir : List Name) (name : Name) : absPath (dir ++ [name]) = slashed (dir ++ [name]) := by
  rw [absPath, reverse_concat, map_cons]
  simpa using absPathFrom_eq name.1 dir.reverse

/-! ### Prefixes of strings and of paths -/

/-- In the place of the last name of `old`, `new` has another one that begins with it. -/
def BeginsLike (old new : List Name) : Prop :=
  ∃ parent x y rest, old = parent ++ [x] ∧ new = parent ++ y :: rest ∧ x.1 <+: y.1 ∧ x ≠ y

variable {x y : Name} {old new : List Name}

/-- A name ends where a slash is. -/
theorem prefix_of_append {s : List Char} (h : x.1 ++ s <+: y.1 ++ slashed new) : x.1 <+: y.1 := by
  obtain h | ⟨t, eq⟩ := prefix_or_prefix_of_prefix (IsPrefix.trans (prefix_append _ _) h) (prefix_append _ _)
  · exact h
  cases t with
  | nil => exact ⟨[], by simpa using eq.symm⟩
  | cons c t =>
    rw [← eq, append_assoc, prefix_append_right_inj] at h
    cases new with
    | nil => simp at h
    | cons z new =>
      obtain ⟨rfl, -⟩ := cons_prefix_cons.mp h
      exact absurd (eq ▸ by simp) x.2.2

theorem beginsLike_cons (h : BeginsLike old new) : BeginsLike (x :: old) (x :: new) := by
  obtain ⟨parent, y, z, rest, rfl, rfl, begins⟩ := h
  exact ⟨x :: parent, y, z, rest, rfl, rfl, begins⟩

theorem prefix_of_slashed (ne : old ≠ []) (h : slashed old <+: slashed new) : old <+: new ∨ BeginsLike old new := by
  induction old generalizing new with
  | nil => exact absurd rfl ne
  | cons x old ih =>
    obtain _ | ⟨y, new⟩ := new
    · simp at h
    rw [slashed, slashed, cons_prefix_cons] at h
    obtain ⟨_ | ⟨c, t⟩, eq⟩ := prefix_of_append h.2
    · obtain rfl : x = y := Subtype.ext (by simpa using eq)
      obtain _ | ⟨z, old⟩ := old
      · simp
      · refine (ih (cons_ne_nil _ _) ((prefix_append_right_inj _).mp h.2)).imp ?_ beginsLike_cons
        exact fun pre => cons_prefix_cons.mpr ⟨rfl, pre⟩
    · have other : x ≠ y := fun same => by simp [same] at eq
      obtain _ | ⟨z, old⟩ := old
      · exact .inr ⟨[], x, y, new, rfl, rfl, ⟨_, eq⟩, other⟩
      -- the slash after `x` would be a character of `y`
      rw [← eq, append_assoc, prefix_append_right_inj] at h
      obtain ⟨rfl, -⟩ := cons_prefix_cons.mp h.2
      exact absurd (eq ▸ by simp) y.2.2

theorem BeginsLike.begins_slashed (h : BeginsLike old new) : ¬ old <+: new ∧
    slashed old <+: slashed new ∧ slashed old ≠ slashed new := by
  obtain ⟨parent, x, y, rest, rfl, rfl, ⟨t, eq⟩, ne⟩ := h
  refine ⟨fun pre => ne ?_, ⟨t ++ slashed rest, by simp [← eq]⟩, fun same => ne (Subtype.ext ?_)⟩
  · simpa using pre
  · simp [← eq] at same
    simpa [same.1] using eq

theorem slashed_prefix_iff (ne : old ≠ []) :
    (slashed old <+: slashed new ∧ slashed old ≠ slashed new ↔ old <+: new ∧ old ≠ new) ↔
      ¬ BeginsLike old new := by
  constructor
  · intro h begins
    exact begins.begins_slashed.1 (h.mp begins.begins_slashed.2).1
  · intro not
    constructor
    · rintro ⟨pre, other⟩
      exact ⟨(prefix_of_slashed ne pre).resolve_right not, fun eq => other (by rw [eq])⟩
    · rintro ⟨⟨t, rfl⟩, other⟩
      rw [slashed_append]
      refine ⟨prefix_append _ _, fun eq => other ?_⟩
      cases t <;> simp_all

theorem not_prefix_slash_slash (ne : old ≠ []) (s : List Char) : ¬ slashed old <+: '/' :: '/' :: s := by
  obtain ⟨⟨name, nonempty, noSlash⟩, old, rfl⟩ := exists_cons_of_ne_nil ne
  obtain ⟨c, name, rfl⟩ := exists_cons_of_ne_nil nonempty
  rintro ⟨t, eq⟩
  exact noSlash (by simp_all)

/-! ### The check -/

theorem not_isOk_checkPaths (old newDir : List Name) (newName : Name) : ¬ (checkPaths old newDir newName).isOk ↔
    absPath old <+: absPath newDir ++ ['/'] ++ newName ∧ absPath old ≠ absPath newDir ++ ['/'] ++ newName := by
  rw [checkPaths]
  split_ifs with pre len
  · exact iff_of_false (by decide) fun h => h.2 (pre.eq_of_length len.symm)
  · exact iff_of_true (by decide) ⟨pre, fun eq => len (by rw [eq])⟩
  · exact iff_of_false (by decide) fun h => pre h.1

theorem checkPaths_iff (old newDir : List Name) (newName : Name) :
    (¬ (checkPaths old newDir newName).isOk ↔ old <+: newDir ++ [newName] ∧ old ≠ newDir ++ [newName]) ↔
      ¬ (newDir ≠ [] ∧ BeginsLike old (newDir ++ [newName])) := by
  rw [not_isOk_checkPaths]
  obtain rfl | ⟨dir, d, rfl⟩ := eq_nil_or_concat' newDir
  · -- below the root the new path has two slashes in front of its name
    obtain rfl | ⟨parent, x, rfl⟩ := eq_nil_or_concat' old
    · simp [absPath]
    · rw [absPath_concat]
      have below : ¬ (parent ++ [x] <+: [newName] ∧ parent ++ [x] ≠ [newName]) :=
        fun h => h.2 (h.1.eq_of_length_le (by simp))
      have passes (s) := not_prefix_slash_slash (concat_ne_nil x parent) s
      exact iff_of_true (iff_of_false (fun h => passes _ h.1) below) (fun h => h.1 rfl)
  have eq : absPath (dir ++ [d]) ++ ['/'] ++ newName.1 = slashed (dir ++ [d] ++ [newName]) := by simp [absPath_concat]
  rw [eq]
  obtain rfl | ⟨parent, x, rfl⟩ := eq_nil_or_concat' old
  · cases dir <;> simp [absPath, BeginsLike]
  · rw [absPath_concat, slashed_prefix_iff (by simp)]
    simp

/-- `/a` may become `/ab`, but `/d/a` may not become `/d/ab`, which does not lie below it. -/
theorem sibling_refused : ∃ d a ab : Name, checkPaths [a] [] ab = .ok false ∧
    ¬ (checkPaths [d, a] [d] ab).isOk ∧ ¬ [d, a] <+: [d] ++ [ab] :=
  ⟨⟨['d'], by decide⟩, ⟨['a'], by decide⟩, ⟨['a', 'b'], by decide⟩, by decide +kernel⟩

end OmegaOsx.Dentries
