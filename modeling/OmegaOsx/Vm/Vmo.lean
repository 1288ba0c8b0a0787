import Mathlib.Order.Interval.Finset.Nat

/-!
# The pages of a VMO

Calls to `commit_on`, `try_commit_page` and `resize` of one VMO, on any number of threads.
-/

namespace OmegaOsx.Vm

open Relation (ReflTransGen)

def pageSize : Nat := 4096

structure Vmo where
  size : Nat
  /-- The indices that hold a page. -/
  pages : Finset Nat
  /-- The indices of the calls to `commit_on` that have yet to take the lock. -/
  calls : List Nat
  hasPager : Bool

namespace Vmo

/-- `align_up(PAGE_SIZE)`. -/
def alignUp (size : Nat) : Nat := (size + (pageSize - 1)) / pageSize * pageSize

def alloc (size : Nat) (contiguous hasPager : Bool) : Vmo where
  size := alignUp size
  pages := if contiguous then .range (alignUp size / pageSize) else ∅
  calls := []
  hasPager := hasPager

/-- `commit_on` under the lock; it fails past the size. -/
def commitOn (v : Vmo) (pageIdx : Nat) : Vmo :=
  { v with
    pages := if v.size < pageIdx * pageSize then v.pages else insert pageIdx v.pages
    calls := v.calls.erase pageIdx }

def resize (v : Vmo) (newSize : Nat) : Vmo :=
  { v with
    size := alignUp newSize
    pages := v.pages \ .Ico (alignUp newSize / pageSize) (v.size / pageSize) }

/-- The sections of the calls; `commit_on` runs under the lock where `allowed`. -/
inductive Step (allowed : Vmo → Nat → Prop) (v : Vmo) : Vmo → Prop
  | preparePage (pageIdx : Nat) : Step allowed v { v with calls := pageIdx :: v.calls }
  -- `try_commit_page` goes on to `commit_on` where it loads no page and there is no pager
  | tryCommitPage (offset : Nat) : offset < v.size → offset / pageSize ∉ v.pages → v.hasPager = false →
    Step allowed v { v with calls := offset / pageSize :: v.calls }
  | commitOn (pageIdx : Nat) : pageIdx ∈ v.calls → allowed v pageIdx → Step allowed v (v.commitOn pageIdx)
  | resize (newSize : Nat) : Step allowed v (v.resize newSize)

def Inside (v : Vmo) : Prop := ∀ pageIdx ∈ v.pages, pageIdx < v.size / pageSize

/-- The check of the size lets the index right after the last page through. -/
theorem commitOn_inside_iff {v : Vmo} (inside : v.Inside) (aligned : pageSize ∣ v.size) (pageIdx : Nat) :
    (v.commitOn pageIdx).Inside ↔ v.size ≠ pageIdx * pageSize := by
  obtain ⟨n, eq⟩ := aligned
  have pages : v.size / pageSize = n := by rw [eq, Nat.mul_div_cancel_left _ (by decide)]
  unfold Inside commitOn at *
  simp only [pages] at *
  split_ifs with past
  · exact iff_of_true inside (ne_of_lt past)
  · simp only [Finset.forall_mem_insert, pageSize] at *
    grind

/-- A run that stores no page at the size keeps every page below it; storing one there breaks this. -/
theorem inside_of_run {size : Nat} {contiguous hasPager : Bool} {v : Vmo}
    (run : ReflTransGen (Step fun v pageIdx => v.size ≠ pageIdx * pageSize) (alloc size contiguous hasPager) v) :
    v.Inside ∧ ∀ pageIdx, (v.commitOn pageIdx).Inside ↔ v.size ≠ pageIdx * pageSize := by
  have keep : v.Inside ∧ pageSize ∣ v.size := by
    induction run with
    | refl => exact ⟨by cases contiguous <;> simp [Inside, alloc], Nat.dvd_mul_left _ _⟩
    | tail _ step ih =>
      obtain ⟨inside, aligned⟩ := ih
      cases step with
      | preparePage | tryCommitPage => exact ⟨inside, aligned⟩
      | commitOn pageIdx _ allowed => exact ⟨(commitOn_inside_iff inside aligned pageIdx).mpr allowed, aligned⟩
      | resize newSize =>
        refine ⟨fun pageIdx mem => ?_, Nat.dvd_mul_left _ _⟩
        obtain ⟨mem, kept⟩ := Finset.mem_sdiff.mp mem
        have := inside pageIdx mem
        grind [resize]
  exact ⟨keep.1, commitOn_inside_iff keep.1 keep.2⟩

/-- Two pages are committed and a third one is refused; then the second page is cut off while a call
is about to commit it again. -/
theorem inside_of_run_shrunk : ∃ v, ReflTransGen (Step fun v pageIdx => v.size ≠ pageIdx * pageSize)
    (alloc 5000 false false) v ∧ v.pages = {0} ∧ v.calls = [1] ∧ v.Inside ∧ ¬ (v.commitOn 1).Inside := by
  have start : ReflTransGen (Step fun v pageIdx => v.size ≠ pageIdx * pageSize) (alloc 5000 false false) _ := .refl
  have committed := start.tail (.tryCommitPage 0 (by decide) (by decide) rfl)
    |>.tail (.commitOn 0 (by decide) (by decide)) |>.tail (.tryCommitPage 4096 (by decide) (by decide) rfl)
    |>.tail (.commitOn 1 (by decide) (by decide))
  have run := committed.tail (.preparePage 3) |>.tail (.commitOn 3 (by decide) (by decide))
    |>.tail (.preparePage 1) |>.tail (.resize 4096)
  obtain ⟨inside, keeps⟩ := inside_of_run run
  exact ⟨_, run, by decide, rfl, inside, fun kept => (keeps 1).mp kept (by decide)⟩

/-- A VMO shrinks to nothing between the check of `try_commit_page` and the lock of `commit_on`. -/
theorem tryCommitPage_resize_races : ∃ v, ReflTransGen (Step fun _ _ => True) (alloc 1 false false) v ∧
    v.calls = [] ∧ ¬ v.Inside :=
  ⟨_, .tail (.tail (.single (.tryCommitPage 0 (by decide) (by decide) rfl)) (.resize 0))
    (.commitOn 0 (by decide) trivial), rfl, fun inside => absurd (inside 0 (by decide)) (by decide)⟩

end OmegaOsx.Vm.Vmo
