import OmegaOsx.Ext2.Xattr

/-!
# The layout of an attribute block

`Layout`: the entries and the values of a block lie apart from each other, with a gap of four bytes between
the last entry and the first value, every value belongs to one entry, and no name occurs twice. It is kept
by a call unless the value is empty, or a new entry and its value fit into the space between entries and
values each on its own but not both (`Crowded`): `set` looks for the two rooms independently of each other.
-/

namespace OmegaOsx.Ext2

open ByteBuffer SortedMap XattrEntry List Function
open MlsDisk (ok_bind)

theorem alignUp_eq (n : Nat) : alignUp n XATTR_ALIGN = (n + 3) / 4 * 4 := rfl

theorem XattrEntry.targetLen_eq (n : Nat) : targetLen n = 16 + (n + 3) / 4 * 4 := rfl

theorem XattrEntry.totalLen_le (e : XattrEntry) : 16 + e.nameLen ≤ e.totalLen := by
  rw [totalLen, targetLen_eq]
  omega

theorem XattrName.length_pos (name : XattrName) : 0 < name.fullName.length := by
  refine length_pos_iff.mpr fun empty => ?_
  have parsed := name.parsed
  rw [empty] at parsed
  revert parsed
  cases name.ns <;> decide

/-- The full name determines the namespace. -/
theorem XattrName.ext_fullName {name name' : XattrName} (same : name.fullName = name'.fullName) : name = name' := by
  have parsed := name.parsed.symm.trans (same ▸ name'.parsed)
  cases name
  cases name'
  cases same
  cases Option.some.inj parsed
  rfl

namespace Xattr

/-- An entry stands for a name. -/
structure Named (buf : Nat → UInt8) (o : Nat) (e : XattrEntry) (name : XattrName) : Prop where
  index : e.nameIndex = name.ns.index
  len : e.nameLen = name.fullName.length
  bytes : slice buf (o + 16) e.nameLen = name.fullName

/-- An entry lies in the buffer as the cache has it. -/
structure EntryAt (buf : Nat → UInt8) (o : Nat) (e : XattrEntry) : Prop where
  low : 32 ≤ o
  aligned : o % 4 = 0
  stored : slice buf o 16 = e.bytes
  named : ∃ name, Named buf o e name
  block : e.valueBlock = 0
  hash : e.hash = 0

structure ValueAt (v l : Nat) : Prop where
  aligned : v % 4 = 0
  pos : 0 < l
  high : v + (l + 3) / 4 * 4 ≤ 4096

/-- The entries and the values of a block, by offset. -/
structure Table (buf : Nat → UInt8) (es : Nat → Option XattrEntry) (vs : Nat → Option Nat) : Prop where
  magic : slice buf 0 4 = LittleEndian.toBytes 4 XattrHeader.EXT2_XATTR_MAGIC
  entry : ∀ o e, es o = some e → EntryAt buf o e
  entriesApart : ∀ o e o' e', es o = some e → es o' = some e' → o < o' → o + e.totalLen ≤ o'
  value : ∀ v l, vs v = some l → ValueAt v l
  valuesApart : ∀ v l v' l', vs v = some l → vs v' = some l' → v < v' → v + (l + 3) / 4 * 4 ≤ v'
  before : ∀ o e v l, es o = some e → vs v = some l → o + e.totalLen + 4 ≤ v
  high : ∀ o e, es o = some e → o + e.totalLen + 4 ≤ 4096
  low : ∀ v l, vs v = some l → 36 ≤ v
  owns : ∀ o e, es o = some e → vs e.valueOffset = some e.valueLen
  owned : ∀ v l, vs v = some l → ∃ o e, es o = some e ∧ e.valueOffset = v
  unique : ∀ o e o' e', es o = some e → es o' = some e' → e.valueOffset = e'.valueOffset → o = o'
  distinct : ∀ o e o' e' name, es o = some e → es o' = some e' → Named buf o e name →
    Named buf o' e' name → o = o'

def Layout (x : Xattr) : Prop := Table x.blocksBuf x.entries.lookup x.values.lookup

variable {x : Xattr} {o v l n : Nat} {e : XattrEntry} {name : XattrName}

/-! ### The ends of the two areas -/

variable {P : Nat → Prop} {preEnd : Nat}

theorem lastEntryEnd_ind (header : P 32)
    (entry : ∀ o e, x.entries.lookup o = some e → P (o + e.totalLen)) : P x.lastEntryEnd := by
  unfold lastEntryEnd
  cases last : x.entries.entries.getLast? with
  | none => exact header
  | some e => exact entry e.1 e.2 (mem_entries_iff.mp (mem_of_getLast? last))

theorem firstValueStart_ind (bound : P 4096) (value : ∀ v l, x.values.lookup v = some l → P v) :
    P x.firstValueStart := by
  unfold firstValueStart
  cases first : x.values.entries.head? with
  | none => exact bound
  | some v => exact value v.1 v.2 (mem_entries_iff.mp (mem_of_head? first))

theorem firstValueStart_le (found : x.values.lookup v = some l) : x.firstValueStart ≤ v := by
  unfold firstValueStart
  cases first : x.values.entries.head? with
  | none =>
    rw [head?_eq_none_iff] at first
    have mem := mem_entries_iff.mpr found
    rw [first] at mem
    cases mem
  | some first' => exact head_le x.values.sorted first (v, l) (mem_entries_iff.mpr found)

namespace Layout

section

variable (h : x.Layout)

include h

theorem entry_le (found : x.entries.lookup o = some e) : o + e.totalLen ≤ x.lastEntryEnd := by
  unfold lastEntryEnd
  have mem := mem_entries_iff.mpr found
  cases last : x.entries.entries.getLast? with
  | none =>
    rw [getLast?_eq_none_iff] at last
    rw [last] at mem
    cases mem
  | some e' =>
    have found' := mem_entries_iff.mp (mem_of_getLast? last)
    rcases lt_or_eq_of_le (le_getLast x.entries.sorted last (o, e) mem) with lt | same
    · have := h.entriesApart o e e'.1 e'.2 found found' lt
      exact le_trans this (Nat.le_add_right _ _)
    · subst same
      cases found.symm.trans found'
      exact le_rfl

theorem le_lastEntryEnd : 32 ≤ x.lastEntryEnd :=
  lastEntryEnd_ind le_rfl fun o e found => Nat.le_add_right_of_le (h.entry o e found).low

theorem firstValueStart_bound : x.firstValueStart ≤ 4096 :=
  firstValueStart_ind (P := (· ≤ 4096)) le_rfl fun v l found => Nat.le_of_add_right_le (h.value v l found).high

/-- The last entry ends four bytes before the first value. -/
theorem room : x.lastEntryEnd + 4 ≤ x.firstValueStart := by
  refine lastEntryEnd_ind (P := (· + 4 ≤ _)) ?_ fun o e found => ?_
  · exact firstValueStart_ind (by omega) h.low
  · exact firstValueStart_ind (h.high o e found) fun v l => h.before o e v l found

theorem lastEntryEnd_aligned : x.lastEntryEnd % 4 = 0 := by
  refine lastEntryEnd_ind (P := (· % 4 = 0)) rfl fun o e found => ?_
  have := (h.entry o e found).aligned
  rw [totalLen, targetLen_eq]
  omega

theorem firstValueStart_aligned : x.firstValueStart % 4 = 0 :=
  firstValueStart_ind (P := (· % 4 = 0)) rfl fun v l found => (h.value v l found).aligned

end

end Layout

/-! ### Changes of a table -/

/-- The attributes of a table. -/
def Binds (buf : Nat → UInt8) (es : Nat → Option XattrEntry) (name : XattrName) (bytes : List UInt8) : Prop :=
  ∃ o e, es o = some e ∧ Named buf o e name ∧ slice buf e.valueOffset e.valueLen = bytes

section Changes

variable {buf buf' : Nat → UInt8} {es : Nat → Option XattrEntry} {vs : Nat → Option Nat}

theorem Named.eq {name' : XattrName} (h : Named buf o e name) (h' : Named buf o e name') : name = name' :=
  XattrName.ext_fullName (h.bytes.symm.trans h'.bytes)

/-- The two buffers agree on an entry and its name. -/
def SameEntry (buf buf' : Nat → UInt8) (o : Nat) (e : XattrEntry) : Prop :=
  ∀ i, o ≤ i → i < o + 16 + e.nameLen → buf' i = buf i

/-- They agree on its value too. -/
structure SameAttr (buf buf' : Nat → UInt8) (o : Nat) (e : XattrEntry) : Prop where
  entry : SameEntry buf buf' o e
  value : slice buf' e.valueOffset e.valueLen = slice buf e.valueOffset e.valueLen

theorem SameEntry.named (same : SameEntry buf buf' o e) : Named buf' o e name ↔ Named buf o e name := by
  have bytes : slice buf' (o + 16) e.nameLen = slice buf (o + 16) e.nameLen :=
    slice_eq_iff.mpr fun i le lt => same i (by omega) lt
  exact ⟨fun ⟨index, len, eq⟩ => ⟨index, len, bytes ▸ eq⟩,
    fun ⟨index, len, eq⟩ => ⟨index, len, bytes ▸ eq⟩⟩

theorem EntryAt.congr (h : EntryAt buf o e) (same : SameEntry buf buf' o e) : EntryAt buf' o e := by
  obtain ⟨name, named⟩ := h.named
  refine ⟨h.low, h.aligned, ?_, ⟨name, same.named.mpr named⟩, h.block, h.hash⟩
  rw [← h.stored]
  exact slice_eq_iff.mpr fun i le lt => same i le (by omega)

/-- Bytes that belong to no entry may change. -/
theorem Table.rewrite (t : Table buf es vs) (start : ∀ i < 4, buf' i = buf i)
    (same : ∀ o e, es o = some e → SameEntry buf buf' o e) : Table buf' es vs where
  magic := by
    rw [← t.magic]
    exact slice_eq_iff.mpr fun i _ lt => start i (by omega)
  entry o e found := (t.entry o e found).congr (same o e found)
  entriesApart := t.entriesApart
  value := t.value
  valuesApart := t.valuesApart
  before := t.before
  high := t.high
  low := t.low
  owns := t.owns
  owned := t.owned
  unique := t.unique
  distinct o e o' e' name found found' named named' :=
    t.distinct o e o' e' name found found' ((same o e found).named.mp named) ((same o' e' found').named.mp named')

theorem binds_rewrite (same : ∀ o e, es o = some e → SameAttr buf buf' o e) (name : XattrName)
    (bytes : List UInt8) :
    Binds buf' es name bytes ↔ Binds buf es name bytes := by
  constructor
  · rintro ⟨o, e, found, named, eq⟩
    exact ⟨o, e, found, (same o e found).entry.named.mp named, (same o e found).value.symm.trans eq⟩
  · rintro ⟨o, e, found, named, eq⟩
    exact ⟨o, e, found, (same o e found).entry.named.mpr named, (same o e found).value.trans eq⟩

variable {α : Type} {f : Nat → Option α} {k p : Nat} {i : Nat} {a b : α}

theorem of_update_none (h : update f k none i = some a) : i ≠ k ∧ f i = some a := by
  by_cases same : i = k
  · rw [same, update_self] at h
    cases h
  · rw [update_of_ne same] at h
    exact ⟨same, h⟩

theorem of_update_some (h : update f k (some b) i = some a) : (i = k ∧ a = b) ∨ (i ≠ k ∧ f i = some a) := by
  by_cases same : i = k
  · rw [same, update_self] at h
    exact .inl ⟨same, (Option.some.inj h).symm⟩
  · rw [update_of_ne same] at h
    exact .inr ⟨same, h⟩

theorem forall_update {P : Nat → α → Prop} (new : P k b)
    (old : ∀ i a, f i = some a → P i a) (i : Nat) (a : α) (h : update f k (some b) i = some a) : P i a := by
  rcases of_update_some h with ⟨rfl, rfl⟩ | ⟨-, h⟩
  · exact new
  · exact old i a h

theorem forall_update₂ {β : Type} {g : Nat → Option β} {k' : Nat} {b' : β}
    {P : Nat → α → Nat → β → Prop} (both : P k b k' b') (left : ∀ j c, g j = some c → P k b j c)
    (right : ∀ i a, f i = some a → P i a k' b') (old : ∀ i a j c, f i = some a → g j = some c → P i a j c)
    (i : Nat) (a : α) (j : Nat) (c : β) (h : update f k (some b) i = some a) (h' : update g k' (some b') j = some c) :
    P i a j c :=
  forall_update (P := fun i a => P i a j c) (forall_update both left j c h')
    (fun i a found => forall_update (right i a found) (fun j c => old i a j c found) j c h') i a h

theorem Table.erase (t : Table buf es vs) (found : es o = some e) :
    Table buf (update es o none) (update vs e.valueOffset none) where
  magic := t.magic
  entry o' e' h := t.entry o' e' (of_update_none h).2
  entriesApart o1 e1 o2 e2 h h' := t.entriesApart o1 e1 o2 e2 (of_update_none h).2 (of_update_none h').2
  value v l h := t.value v l (of_update_none h).2
  valuesApart v l v' l' h h' := t.valuesApart v l v' l' (of_update_none h).2 (of_update_none h').2
  before o' e' v l h h' := t.before o' e' v l (of_update_none h).2 (of_update_none h').2
  high o' e' h := t.high o' e' (of_update_none h).2
  low v l h := t.low v l (of_update_none h).2
  owns o' e' h := by
    obtain ⟨ne, found'⟩ := of_update_none h
    rw [update_of_ne fun same => ne (t.unique o' e' o e found' found same)]
    exact t.owns o' e' found'
  owned v l h := by
    obtain ⟨ne, found'⟩ := of_update_none h
    obtain ⟨o', e', at', rfl⟩ := t.owned v l found'
    refine ⟨o', e', ?_, rfl⟩
    rw [update_of_ne]
    · exact at'
    · rintro rfl
      cases at'.symm.trans found
      exact ne rfl
  unique o1 e1 o2 e2 h h' := t.unique o1 e1 o2 e2 (of_update_none h).2 (of_update_none h').2
  distinct o1 e1 o2 e2 name h h' := t.distinct o1 e1 o2 e2 name (of_update_none h).2 (of_update_none h').2

theorem Table.binds_erase (t : Table buf es vs) (found : es o = some e) (named : Named buf o e name) (name' : XattrName)
    (bytes : List UInt8) : Binds buf (update es o none) name' bytes ↔ name' ≠ name ∧
    Binds buf es name' bytes := by
  constructor
  · rintro ⟨o', e', h, named', eq⟩
    obtain ⟨ne, found'⟩ := of_update_none h
    refine ⟨?_, o', e', found', named', eq⟩
    rintro rfl
    exact ne (t.distinct o' e' o e _ found' found named' named)
  · rintro ⟨ne, o', e', found', named', eq⟩
    refine ⟨o', e', ?_, named', eq⟩
    rw [update_of_ne]
    · exact found'
    · rintro rfl
      cases found'.symm.trans found
      exact ne (named'.eq named)

/-- Where an entry and its value can be put in. -/
structure Fits (es : Nat → Option XattrEntry) (vs : Nat → Option Nat) (p : Nat) (e : XattrEntry) : Prop where
  entryFree : ∀ o e', es o = some e' → p + e.totalLen ≤ o ∨ o + e'.totalLen ≤ p
  value : ValueAt e.valueOffset e.valueLen
  valueFree : ∀ v l, vs v = some l → e.valueOffset + (e.valueLen + 3) / 4 * 4 ≤ v ∨
    v + (l + 3) / 4 * 4 ≤ e.valueOffset
  before : p + e.totalLen + 4 ≤ e.valueOffset
  beforeValues : ∀ v l, vs v = some l → p + e.totalLen + 4 ≤ v
  afterEntries : ∀ o e', es o = some e' → o + e'.totalLen + 4 ≤ e.valueOffset

variable (t : Table buf es vs) (fits : Fits es vs p e)
include t fits

theorem Fits.fresh : es p = none ∧ vs e.valueOffset = none := by
  constructor
  · cases found : es p with
    | none => rfl
    | some e' =>
      have := fits.entryFree p e' found
      rw [totalLen, totalLen, targetLen_eq, targetLen_eq] at this
      omega
  · cases found : vs e.valueOffset with
    | none => rfl
    | some l =>
      have := fits.valueFree e.valueOffset l found
      have := fits.value.pos
      have := (t.value _ _ found).pos
      omega

theorem Table.add (new : EntryAt buf p e) (named : Named buf p e name)
    (absent : ∀ o e', es o = some e' → ¬ Named buf o e' name) :
    Table buf (update es p (some e)) (update vs e.valueOffset (some e.valueLen)) := by
  obtain ⟨freshEntry, freshValue⟩ := fits.fresh t
  have other : ∀ o e', es o = some e' → e'.valueOffset ≠ e.valueOffset := by
    intro o e' h same
    have owns := t.owns o e' h
    rw [same, freshValue] at owns
    cases owns
  refine ⟨t.magic, forall_update new t.entry, forall_update₂ ?_ ?_ ?_ t.entriesApart,
    forall_update fits.value t.value,
    forall_update₂ ?_ ?_ ?_ t.valuesApart, forall_update₂ fits.before fits.beforeValues fits.afterEntries t.before,
    forall_update ?_ t.high, forall_update ?_ t.low, forall_update (update_self _ _ _) ?_,
    forall_update ⟨p, e, update_self _ _ _, rfl⟩ ?_, forall_update₂ ?_ ?_ ?_ t.unique, ?_⟩
  · omega
  · intro o e' h lt
    have := fits.entryFree o e' h
    omega
  · intro o e' h lt
    have := fits.entryFree o e' h
    omega
  · omega
  · intro v l h lt
    have := fits.valueFree v l h
    omega
  · intro v l h lt
    have := fits.valueFree v l h
    omega
  · have := fits.before
    have := fits.value.high
    omega
  · have := fits.before
    have := new.low
    omega
  · intro o e' h
    rw [update_of_ne (other o e' h)]
    exact t.owns o e' h
  · intro v l h
    obtain ⟨o, e', found, eq⟩ := t.owned v l h
    refine ⟨o, e', ?_, eq⟩
    rw [update_of_ne]
    · exact found
    · rintro rfl
      rw [freshEntry] at found
      cases found
  · exact fun _ => rfl
  · exact fun o e' h same => absurd same.symm (other o e' h)
  · exact fun o e' h same => absurd same (other o e' h)
  · intro o1 e1 o2 e2 name' h h'
    refine forall_update₂ ?_ ?_ ?_ (fun o e o' e' => t.distinct o e o' e' name') o1 e1 o2 e2 h h'
    · exact fun _ _ => rfl
    · intro o e' old named1 named2
      cases named.eq named1
      exact absurd named2 (absent o e' old)
    · intro o e' old named1 named2
      cases named.eq named2
      exact absurd named1 (absent o e' old)

theorem Table.binds_add (named : Named buf p e name) (name' : XattrName) (bytes : List UInt8) :
    Binds buf (update es p (some e)) name' bytes ↔
      (name' = name ∧ bytes = slice buf e.valueOffset e.valueLen) ∨ Binds buf es name' bytes := by
  constructor
  · rintro ⟨o, e', h, named', eq⟩
    rcases of_update_some h with ⟨rfl, rfl⟩ | ⟨-, h⟩
    · exact .inl ⟨named'.eq named, eq.symm⟩
    · exact .inr ⟨o, e', h, named', eq⟩
  rintro (⟨rfl, rfl⟩ | ⟨o, e', h, named', eq⟩)
  · exact ⟨p, e, update_self _ _ _, named, rfl⟩
  refine ⟨o, e', ?_, named', eq⟩
  rw [update_of_ne]
  · exact h
  · rintro rfl
    rw [(fits.fresh t).1] at h
    cases h

end Changes

/-! ### Finding an entry -/

theorem findEntryIn_spec {buf : Nat → UInt8} {l : List (Nat × XattrEntry)}
    (fits : ∀ e ∈ l, e.1 + 16 + e.2.nameLen ≤ 4096) (name : XattrName) :
    ∃ r, findEntryIn buf name l = .ok r ∧ (∀ o e, r = some (o, e) → (o, e) ∈ l ∧ Named buf o e name) ∧
      (r = none → ∀ e ∈ l, ¬ Named buf e.1 e.2 name) := by
  have short := name.short
  have small : name.fullName.length % 2 ^ 8 = name.fullName.length := Nat.mod_eq_of_lt (by omega)
  induction l with
  | nil => exact ⟨none, rfl, (fun o e eq => by cases eq), fun _ e mem => by cases mem⟩
  | cons head rest ih =>
    obtain ⟨r, eq, found, absent⟩ := ih fun e mem => fits e (mem_cons_of_mem _ mem)
    have later : ∀ o e, r = some (o, e) → (o, e) ∈ head :: rest ∧ Named buf o e name := fun o e eq =>
      ⟨mem_cons_of_mem _ (found o e eq).1, (found o e eq).2⟩
    obtain ⟨o, e⟩ := head
    rw [findEntryIn]
    split
    · next same =>
      rw [small] at same
      have fit := fits (o, e) mem_cons_self
      dsimp only at fit
      rw [if_neg (by rw [capacityBytes, XATTR_ENTRY_SIZE]; omega)]
      split
      · next bytes =>
        refine ⟨some (o, e), rfl, fun o' e' eq => ?_, fun eq => by cases eq⟩
        cases eq
        exact ⟨mem_cons_self, same.1, same.2, same.2 ▸ bytes⟩
      · next other =>
        refine ⟨r, eq, later, fun none e' mem named => ?_⟩
        rcases mem_cons.mp mem with rfl | mem
        · exact other (same.2 ▸ named.bytes)
        · exact absent none e' mem named
    · next other =>
      refine ⟨r, eq, later, fun none e' mem named => ?_⟩
      rcases mem_cons.mp mem with rfl | mem
      · exact other ⟨named.index, named.len.trans small.symm⟩
      · exact absent none e' mem named

/-- `find_entry` finds the entry that stands for the name. -/
theorem findEntry_spec (h : x.Layout) (name : XattrName) :
    (∃ o e, x.findEntry name = .ok (some (o, e)) ∧ x.entries.lookup o = some e ∧ Named x.blocksBuf o e name) ∨
      (x.findEntry name = .ok none ∧ ∀ o e, x.entries.lookup o = some e → ¬ Named x.blocksBuf o e name) := by
  have fits : ∀ e ∈ x.entries.entries, e.1 + 16 + e.2.nameLen ≤ 4096 := by
    intro e mem
    have found := mem_entries_iff.mp mem
    have := e.2.totalLen_le
    have := h.high _ _ found
    omega
  obtain ⟨r, eq, found, absent⟩ := findEntryIn_spec fits name
  have here : x.findEntry name = .ok r := by
    rw [findEntry, if_neg (ne_of_gt name.length_pos), eq]
  rcases r with - | ⟨o, e⟩
  · exact .inr ⟨here, fun o e mem => absent rfl (o, e) (mem_entries_iff.mpr mem)⟩
  · obtain ⟨mem, named⟩ := found o e rfl
    exact .inl ⟨o, e, here, mem_entries_iff.mp mem, named⟩

/-! ### Finding room -/

theorem checkedSub_of_le {a b : Nat} (le : b ≤ a) : checkedSub a b = .ok (a - b) := if_neg (not_lt.mpr le)

/-- The loop over the entries finds a gap that is long enough. -/
theorem entryGap_spec {l : List (Nat × XattrEntry)} (target : Nat)
    (apart : l.Pairwise fun e e' => e.1 + e.2.totalLen ≤ e'.1) (after : ∀ e ∈ l, preEnd ≤ e.1)
    (aligned : preEnd % 4 = 0) (alignedEnds : ∀ e ∈ l, (e.1 + e.2.totalLen) % 4 = 0) :
    entryGap target preEnd l = .ok none ∨
      ∃ p, entryGap target preEnd l = .ok (some p) ∧ preEnd ≤ p ∧ p % 4 = 0 ∧
        (∃ e ∈ l, p + target ≤ e.1) ∧
        ∀ e ∈ l, p + target ≤ e.1 ∨ e.1 + e.2.totalLen ≤ p := by
  induction l generalizing preEnd with
  | nil => exact .inl rfl
  | cons head rest ih =>
    obtain ⟨o, e⟩ := head
    obtain ⟨first, apart⟩ := pairwise_cons.mp apart
    have le : preEnd ≤ o := after (o, e) mem_cons_self
    rw [entryGap, checkedSub_of_le le, ok_bind]
    split
    · next long =>
      refine .inr ⟨preEnd, rfl, le_rfl, aligned, ⟨(o, e), mem_cons_self, ?_⟩, fun e' mem => .inl ?_⟩
      · omega
      rcases mem_cons.mp mem with rfl | mem
      · omega
      · have := first e' mem
        omega
    · have close := alignedEnds (o, e) mem_cons_self
      rcases ih apart first close fun e' mem => alignedEnds e' (mem_cons_of_mem _ mem) with
        none | ⟨p, eq, le', aligned', ⟨e', mem', before⟩, free⟩
      · exact .inl none
      refine .inr ⟨p, eq, by omega, aligned', ⟨e', mem_cons_of_mem _ mem', before⟩, fun e' mem => ?_⟩
      rcases mem_cons.mp mem with rfl | mem
      · exact .inr le'
      · exact free e' mem

/-- The loop over the values finds a gap that is long enough. -/
theorem valueGap_spec {l : List (Nat × Nat)} (target : Nat)
    (apart : l.Pairwise fun v v' => v'.1 + (v'.2 + 3) / 4 * 4 ≤ v.1)
    (before : ∀ v ∈ l, v.1 + (v.2 + 3) / 4 * 4 ≤ preEnd)
    (aligned : ∀ v ∈ l, v.1 % 4 = 0) :
    valueGap target preEnd l = .ok none ∨
      ∃ r, valueGap target preEnd l = .ok (some r) ∧ r + target ≤ preEnd ∧ r % 4 = 0 ∧
        (∃ v ∈ l, v.1 ≤ r) ∧
        ∀ v ∈ l, r + target ≤ v.1 ∨ v.1 + (v.2 + 3) / 4 * 4 ≤ r := by
  induction l generalizing preEnd with
  | nil => exact .inl rfl
  | cons head rest ih =>
    obtain ⟨v, len⟩ := head
    obtain ⟨first, apart⟩ := pairwise_cons.mp apart
    have le : v + (len + 3) / 4 * 4 ≤ preEnd := before (v, len) mem_cons_self
    have here := aligned (v, len) mem_cons_self
    rw [valueGap, alignUp_eq, checkedSub_of_le le, ok_bind]
    split
    · next long =>
      refine .inr ⟨v + (len + 3) / 4 * 4, rfl, by omega, by omega,
        ⟨(v, len), mem_cons_self, Nat.le_add_right _ _⟩,
        fun v' mem => .inr ?_⟩
      rcases mem_cons.mp mem with rfl | mem
      · exact le_rfl
      · have := first v' mem
        omega
    · rcases ih apart first fun v' mem => aligned v' (mem_cons_of_mem _ mem) with
        none | ⟨r, eq, le', aligned', ⟨v', mem', after⟩, free⟩
      · exact .inl none
      refine .inr ⟨r, eq, by omega, aligned', ⟨v', mem_cons_of_mem _ mem', after⟩, fun v' mem => ?_⟩
      rcases mem_cons.mp mem with rfl | mem
      · exact .inl le'
      · exact free v' mem

/-- The space between the entries and the values, without the gap. -/
def space (x : Xattr) : Nat := x.firstValueStart - 4 - x.lastEntryEnd

/-- Where a new entry may go. -/
structure EntryRoom (x : Xattr) (target p : Nat) : Prop where
  low : 32 ≤ p
  aligned : p % 4 = 0
  high : p + target + 4 ≤ x.firstValueStart
  free : ∀ o e, x.entries.lookup o = some e → p + target ≤ o ∨ o + e.totalLen ≤ p
  /-- Between the entries, unless the space after them is long enough. -/
  inside : p + target ≤ x.lastEntryEnd ∨ (target ≤ x.space ∧ p = x.lastEntryEnd)

/-- Where a new value may go. -/
structure ValueRoom (x : Xattr) (target r : Nat) : Prop where
  low : x.lastEntryEnd + 4 ≤ r
  aligned : r % 4 = 0
  high : r + target ≤ 4096
  free : ∀ v l, x.values.lookup v = some l → r + target ≤ v ∨ v + (l + 3) / 4 * 4 ≤ r
  inside : x.firstValueStart ≤ r ∨ (target ≤ x.space ∧ r = x.firstValueStart - target)

theorem findRoomForNewEntry_spec (h : x.Layout) (nameLen : Nat) : x.findRoomForNewEntry nameLen = .ok none ∨
      ∃ p, x.findRoomForNewEntry nameLen = .ok (some p) ∧ EntryRoom x (targetLen nameLen) p := by
  have room := h.room
  have low := h.le_lastEntryEnd
  unfold findRoomForNewEntry
  rw [checkedSub_of_le (by rw [XATTR_ENTRY_VALUE_GAP, XATTR_ALIGN]; omega), ok_bind,
    checkedSub_of_le (by rw [XATTR_ENTRY_VALUE_GAP, XATTR_ALIGN]; omega), ok_bind, XATTR_ENTRY_VALUE_GAP, XATTR_ALIGN]
  split
  · next long =>
    refine .inr ⟨_, rfl, low, h.lastEntryEnd_aligned, by omega, fun o e found => .inr (h.entry_le found),
      .inr ⟨long, rfl⟩⟩
  have apart : x.entries.entries.Pairwise fun e e' => e.1 + e.2.totalLen ≤ e'.1 :=
    x.entries.sorted.imp_of_mem fun mem mem' lt =>
      h.entriesApart _ _ _ _ (mem_entries_iff.mp mem) (mem_entries_iff.mp mem') lt
  have after : ∀ e ∈ x.entries.entries, XATTR_HEADER_SIZE ≤ e.1 := fun e mem =>
    (h.entry _ _ (mem_entries_iff.mp mem)).low
  have ends : ∀ e ∈ x.entries.entries, (e.1 + e.2.totalLen) % 4 = 0 := fun e mem => by
    have := (h.entry _ _ (mem_entries_iff.mp mem)).aligned
    rw [totalLen, targetLen_eq]
    omega
  rcases entryGap_spec (targetLen nameLen) apart after rfl ends
    with none | ⟨p, eq, le, aligned, ⟨e, mem, before⟩, free⟩
  · exact .inl none
  · have := h.entry_le (mem_entries_iff.mp mem)
    exact .inr ⟨p, eq, le, aligned, by omega,
      fun o e found => free (o, e) (mem_entries_iff.mpr found), .inl (by omega)⟩

theorem findRoomForNewValue_spec (h : x.Layout) (valueLen : Nat) : x.findRoomForNewValue valueLen = .ok none ∨
      ∃ r, x.findRoomForNewValue valueLen = .ok (some r) ∧ ValueRoom x ((valueLen + 3) / 4 * 4) r := by
  have room : x.lastEntryEnd + XATTR_ENTRY_VALUE_GAP ≤ x.firstValueStart := h.room
  have bound := h.firstValueStart_bound
  have first := h.firstValueStart_aligned
  unfold findRoomForNewValue
  rw [checkedSub_of_le room, ok_bind, alignUp_eq]
  rw [XATTR_ENTRY_VALUE_GAP, XATTR_ALIGN] at *
  split
  · next long =>
    refine .inr ⟨_, rfl, by omega, by omega, by omega, fun v l found => .inl ?_, .inr ⟨?_, rfl⟩⟩
    · have := firstValueStart_le found
      omega
    · unfold space
      omega
  · have apart : x.values.entries.reverse.Pairwise fun v v' => v'.1 + (v'.2 + 3) / 4 * 4 ≤ v.1 := by
      refine pairwise_reverse.mpr (x.values.sorted.imp_of_mem fun mem mem' lt => ?_)
      exact h.valuesApart _ _ _ _ (mem_entries_iff.mp mem) (mem_entries_iff.mp mem') lt
    have member : ∀ v ∈ x.values.entries.reverse, x.values.lookup v.1 = some v.2 := fun v mem =>
      mem_entries_iff.mp (mem_reverse.mp mem)
    rcases valueGap_spec ((valueLen + 3) / 4 * 4) apart (fun v mem => (h.value _ _ (member v mem)).high)
      (fun v mem => (h.value _ _ (member v mem)).aligned)
      with none | ⟨r, eq, le, aligned, ⟨v, mem, after⟩, free⟩
    · exact .inl none
    · have := firstValueStart_le (member v mem)
      refine .inr ⟨r, eq, by omega, aligned, le, fun v l found => ?_, .inl (by omega)⟩
      exact free (v, l) (mem_reverse.mpr (mem_entries_iff.mpr found))

end Xattr

end OmegaOsx.Ext2
