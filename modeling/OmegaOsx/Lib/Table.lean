import Mathlib.Data.List.AList

/-!
# Finite maps

A finite map is Mathlib's association list with distinct keys; the order of its entries stands for
the order in which a hash map is iterated.
-/

/-- A finite map from `κ` to `α`. -/
abbrev Table (κ α : Type) := AList fun _ : κ => α

namespace Table

open List AList

variable {κ α : Type} [DecidableEq κ] {t : Table κ α}
  {k k' : κ} {δ ε : Type} {step : Table κ α → (_ : κ) × δ → Except ε (Table κ α)} {st st' : Table κ α}

theorem lookup_insert_ite {a : α} : (t.insert k a).lookup k' = if k' = k then some a else t.lookup k' := by
  split
  · next same => exact same ▸ lookup_insert t
  · next other => exact lookup_insert_ne other

theorem lookup_erase_ite : (t.erase k).lookup k' = if k' = k then none else t.lookup k' := by
  split
  · next same => exact same ▸ lookup_erase _ t
  · next other => exact lookup_erase_ne other

/-- The keys whose value passes a test, in iteration order. -/
def keysWith (p : α → Bool) (t : Table κ α) : List κ := (t.entries.filter (p ·.2)).map (·.1)

omit [DecidableEq κ] in
theorem nodup_keysWith (p : α → Bool) (t : Table κ α) : (t.keysWith p).Nodup :=
  t.keys_nodup.sublist (filter_sublist.map _)

theorem mem_keysWith {p : α → Bool} : k ∈ t.keysWith p ↔ ∃ a, t.lookup k = some a ∧ p a = true := by
  constructor
  · intro mem
    obtain ⟨⟨k', a⟩, inside, rfl⟩ := mem_map.mp mem
    obtain ⟨entry, passes⟩ := mem_filter.mp inside
    exact ⟨a, mem_lookup_iff.mpr entry, passes⟩
  · rintro ⟨a, found, passes⟩
    exact mem_map.mpr ⟨⟨k, a⟩, mem_filter.mpr ⟨mem_lookup_iff.mp found, passes⟩, rfl⟩

/-- Applying the entries of one map to another, where each entry acts on its own key only: the
order in which this is done does not matter. -/
theorem lookup_foldlM {t : Table κ δ}
    {after : Option α → δ → Option α}
    (pointwise : ∀ {st st' k d}, step st ⟨k, d⟩ = .ok st' → ∀ k', st'.lookup k' =
      if k' = k then after (st.lookup k) d else st.lookup k') (run : t.entries.foldlM step st = .ok st') (k : κ) :
    st'.lookup k = (t.lookup k).elim (st.lookup k) (after (st.lookup k)) := by
  obtain ⟨entries, nodup⟩ := t
  show st'.lookup k = (dlookup k entries).elim _ _
  induction entries generalizing st with
  | nil =>
    cases run
    rfl
  | cons entry entries ih =>
    obtain ⟨k0, d⟩ := entry
    rw [foldlM_cons] at run
    cases first : step st ⟨k0, d⟩ with
    | error e =>
      rw [first] at run
      cases run
    | ok mid =>
      rw [first] at run
      have rest := ih (nodupKeys_cons.mp nodup).2 run
      rw [rest, pointwise first k]
      by_cases same : k = k0
      · subst same
        have absent : dlookup k entries = none := dlookup_eq_none.mpr (nodupKeys_cons.mp nodup).1
        rw [if_pos rfl, absent, dlookup_cons_eq]
        rfl
      · rw [if_neg same, dlookup_cons_ne _ _ same]

/-- Each entry has been applied to a map that is like the first one at the entry's key. -/
theorem step_of_foldlM {t : Table κ δ}
    (pointwise : ∀ {st st' k d}, step st ⟨k, d⟩ = .ok st' → ∀ k', k' ≠ k → st'.lookup k' = st.lookup k')
    (run : t.entries.foldlM step st = .ok st') {d : δ}
    (found : t.lookup k = some d) :
    ∃ mid mid', mid.lookup k = st.lookup k ∧ step mid ⟨k, d⟩ = .ok mid' := by
  obtain ⟨entries, nodup⟩ := t
  replace found : dlookup k entries = some d := found
  replace run : entries.foldlM step st = .ok st' := run
  induction entries generalizing st with
  | nil => cases found
  | cons entry entries ih =>
    obtain ⟨k0, d0⟩ := entry
    rw [foldlM_cons] at run
    cases first : step st ⟨k0, d0⟩ with
    | error e =>
      rw [first] at run
      cases run
    | ok mid =>
      rw [first] at run
      by_cases same : k = k0
      · subst same
        rw [dlookup_cons_eq] at found
        cases found
        exact ⟨st, mid, rfl, first⟩
      · rw [dlookup_cons_ne _ _ same] at found
        obtain ⟨mid', mid'', lookup, next⟩ := ih (nodupKeys_cons.mp nodup).2 found run
        exact ⟨mid', mid'', lookup.trans (pointwise first k same), next⟩

end Table
