import OmegaOsx.Ext2.XattrLayout

/-!
# Extended attributes are a map

What `set`, `get` and `remove` do to the attributes of an inode, as a map from names to values.

Three things can go wrong in the source. A new entry and its value may be put over each other, or so close
that the next call underflows (`Crowded`). The record of an empty value takes the place of the record of
another value at the same offset. And a value that is replaced in place is partly overwritten when reading
the new one faults. `Good` excludes them; then a call changes the map as its name says, an error leaves the
map as it was, and no call panics (`calls_refine_map`).
-/

namespace OmegaOsx.Ext2

open ByteBuffer XattrEntry Function List Option
open MlsDisk (ok_bind)

theorem XattrEntry.length_bytes (e : XattrEntry) : e.bytes.length = 16 := by
  simp only [bytes, length_append, LittleEndian.length_toBytes]

variable {bs bytes : List UInt8} {r : Nat}

namespace Xattr

variable {x x' : Xattr} {o v l n : Nat} {e e' : XattrEntry} {name : XattrName} {buf buf' : Nat → UInt8}
  {es : Nat → Option XattrEntry} {vs : Nat → Option Nat}

/-! ### Replacing an entry -/

variable {off len p valueLen : Nat}

theorem SameEntry.of_apart (apart : o + 16 + e.nameLen ≤ off ∨ off + bs.length ≤ o) :
    SameEntry buf (write buf off bs) o e := fun i le lt => write_of_not_mem (by omega)

theorem SameEntry.trans {buf'' : Nat → UInt8} (h : SameEntry buf buf' o e) (h' : SameEntry buf' buf'' o e) :
    SameEntry buf buf'' o e := fun i le lt => (h' i le lt).trans (h i le lt)

/-- What a table becomes when an attribute gets a value. -/
def Bound (buf : Nat → UInt8) (es : Nat → Option XattrEntry) (name : XattrName) (bytes : List UInt8)
    (buf' : Nat → UInt8) (es' : Nat → Option XattrEntry) : Prop :=
  ∀ name' bytes', Binds buf' es' name' bytes' ↔
    (name' = name ∧ bytes' = bytes) ∨ (name' ≠ name ∧ Binds buf es name' bytes')

/-- An entry gets another value: the old one is taken out and the new one put in. -/
theorem Table.replace (t : Table buf es vs) (found : es o = some e) (named : Named buf o e name)
    (start : ∀ i < 4, buf' i = buf i)
    (others : ∀ o' e2, es o' = some e2 → o' ≠ o → SameAttr buf buf' o' e2)
    (fits : Fits (update es o none) (update vs e.valueOffset none) o e')
    (new : EntryAt buf' o e') (named' : Named buf' o e' name) :
    Table buf' (update es o (some e')) (update (update vs e.valueOffset none) e'.valueOffset (some e'.valueLen)) ∧
      Bound buf es name (slice buf' e'.valueOffset e'.valueLen) buf' (update es o (some e')) := by
  have same : ∀ o' e2, update es o none o' = some e2 → SameAttr buf buf' o' e2 := fun o' e2 h => by
    obtain ⟨ne, found'⟩ := of_update_none h
    exact others o' e2 found' ne
  have erased := (t.erase found).rewrite start fun o' e2 h => (same o' e2 h).entry
  have absent : ∀ o' e2, update es o none o' = some e2 → ¬ Named buf' o' e2 name := fun o' e2 h named2 => by
    obtain ⟨ne, found'⟩ := of_update_none h
    exact ne (t.distinct o' e2 o e name found' found ((same o' e2 h).entry.named.mp named2) named)
  have added := erased.add fits new named' absent
  rw [update_idem] at added
  refine ⟨added, fun name' bytes' => ?_⟩
  have binds := erased.binds_add fits named' name' bytes'
  rw [update_idem, binds_rewrite same, t.binds_erase found named] at binds
  exact binds

/-! ### Writes to the buffer -/

variable {offset : Nat} {α : Type} {err : Error}

theorem writeBytes_of_le (le : offset + bytes.length ≤ 4096) (buf : Nat → UInt8) :
    writeBytes offset bytes buf = .ok () (write buf offset bytes) := if_neg (not_lt.mpr le)

theorem writeFrom_of_le {reader : VmReader} (le : offset + reader.bytes.length ≤ 4096) (buf : Nat → UInt8) :
    (reader.bytes.length ≤ reader.readable ∧
    writeFrom offset reader buf = .ok () (write buf offset reader.bytes)) ∨
      (reader.readable < reader.bytes.length ∧
        writeFrom offset reader buf = .error ⟨.efault, none⟩
          (write buf offset (reader.bytes.take reader.readable))) := by
  have inside : ¬ capacityBytes < offset + reader.bytes.length := not_lt.mpr le
  unfold writeFrom
  rw [if_neg inside]
  split
  · next fault => exact .inr ⟨fault, rfl⟩
  · next whole => exact .inl ⟨not_lt.mp whole, rfl⟩

/-- Where a write changes no entry but possibly the one at `o`. -/
structure Harmless (es : Nat → Option XattrEntry) (o off len : Nat) : Prop where
  start : 32 ≤ off
  entries : ∀ o' e', es o' = some e' → o' ≠ o → o' + e'.totalLen ≤ off ∨ off + len ≤ o'
  values : ∀ o' e', es o' = some e' → o' ≠ o → e'.valueOffset + (e'.valueLen + 3) / 4 * 4 ≤ off ∨
    off + len ≤ e'.valueOffset

theorem Harmless.same (buf : Nat → UInt8) (h : Harmless es o off bs.length) {o' : Nat}
    (found : es o' = some e') (ne : o' ≠ o) : SameAttr buf (write buf off bs) o' e' := by
  have := e'.totalLen_le
  have := h.entries o' e' found ne
  have := h.values o' e' found ne
  exact ⟨.of_apart (by omega), slice_write_of_apart (by omega)⟩

theorem Table.harmless_value (t : Table buf es vs) (found : es o = some e) (short : len ≤ e.valueLen) :
    Harmless es o e.valueOffset len := by
  have owns := t.owns o e found
  refine ⟨?_, fun o' e' found' _ => .inl ?_, fun o' e' found' ne => ?_⟩
  · have := t.low _ _ owns
    omega
  · have := t.before o' e' _ _ found' owns
    omega
  · have owns' := t.owns o' e' found'
    rcases lt_trichotomy e'.valueOffset e.valueOffset with lt | same | gt
    · exact .inl (t.valuesApart _ _ _ _ owns' owns lt)
    · exact absurd (t.unique o' e' o e found' found same) ne
    · have := t.valuesApart _ _ _ _ owns owns' gt
      exact .inr (by omega)

theorem Table.harmless_entry (t : Table buf es vs) (found : es o = some e) (short : len ≤ e.totalLen) :
    Harmless es o o len := by
  refine ⟨(t.entry o e found).low, fun o' e' found' ne => ?_, fun o' e' found' _ => .inr ?_⟩
  · rcases lt_or_gt_of_ne ne with lt | gt
    · exact .inl (t.entriesApart o' e' o e found' found lt)
    · have := t.entriesApart o e o' e' found found' gt
      exact .inr (by omega)
  · have := t.before o e _ _ found (t.owns o' e' found')
    omega

/-! ### `set` -/

theorem lookup_insert_eq (m : SortedMap Nat α) (k : Nat) (a : α) :
    (m.insert k a).lookup = update m.lookup k (some a) := by
  funext k'
  rw [SortedMap.lookup_insert, update_apply]

theorem lookup_erase_eq (m : SortedMap Nat α) (k : Nat) : (m.erase k).lookup = update m.lookup k none := by
  funext k'
  rw [SortedMap.lookup_erase, update_apply]

/-- An attribute and its value. -/
def Attr (x : Xattr) (name : XattrName) (bytes : List UInt8) : Prop := Binds x.blocksBuf x.entries.lookup name bytes

/-- Everything but the attributes stays. -/
structure Frame (x x' : Xattr) : Prop where
  bid : x'.bid = x.bid
  header : x'.header = x.header

/-- The cache gets dirty, unless no entry changes. -/
def Noticed (x x' : Xattr) : Prop :=
  x'.dirty = true ∨ (x'.dirty = x.dirty ∧ x'.entries = x.entries ∧ (∀ i < 4, x'.blocksBuf i = x.blocksBuf i) ∧
    ∀ o e, x.entries.lookup o = some e → SameEntry x.blocksBuf x'.blocksBuf o e)

theorem Noticed.refl (x : Xattr) : Noticed x x := .inr ⟨rfl, rfl, fun _ _ => rfl, fun _ _ _ _ _ _ => rfl⟩

/-- What `set` does: it binds the name, or it fails and changes no attribute, unless the value is replaced in
place and reading the new one faults. -/
structure SetEffect (x : Xattr) (name : XattrName) (reader : VmReader) (flags : XattrSetFlags)
    (result : Except Error Unit) (x' : Xattr) : Prop where
  layout : x'.Layout
  frame : Frame x x'
  bound : result = .ok () → ∀ name' bytes', x'.Attr name' bytes' ↔
    (name' = name ∧ bytes' = reader.bytes) ∨ (name' ≠ name ∧ x.Attr name' bytes')
  failed : ∀ err, result = .error err →
    (reader.readable < reader.bytes.length → ∀ old, x.Attr name old → old.length < reader.bytes.length) →
    ∀ name' bytes', x'.Attr name' bytes' ↔ x.Attr name' bytes'
  createOnly : result = .ok () → flags.createOnly = true → ∀ old, ¬ x.Attr name old
  replaceOnly : result = .ok () → flags.replaceOnly = true → ∃ old, x.Attr name old
  noticed : Noticed x x'

variable {reader : VmReader} {flags : XattrSetFlags}

theorem Layout.attr (found : x.entries.lookup o = some e) (named : Named x.blocksBuf o e name) :
    x.Attr name (slice x.blocksBuf e.valueOffset e.valueLen) := ⟨o, e, found, named, rfl⟩

theorem SetEffect.refl (h : x.Layout) : SetEffect x name reader flags (.error err) x :=
  ⟨h, ⟨rfl, rfl⟩, nofun, fun _ _ _ _ _ => Iff.rfl, nofun, nofun, .refl x⟩

/-- A failure after a write to a free area. -/
theorem SetEffect.of_rewrite (h : x.Layout) (start : ∀ i < 4, buf' i = x.blocksBuf i)
    (same : ∀ o e, x.entries.lookup o = some e → SameAttr x.blocksBuf buf' o e) :
    SetEffect x name reader flags (.error err) { x with blocksBuf := buf' } :=
  ⟨Table.rewrite h start fun o e found => (same o e found).entry, ⟨rfl, rfl⟩, nofun,
    fun _ _ _ => binds_rewrite same, nofun, nofun,
    .inr ⟨rfl, rfl, start, fun o e found => (same o e found).entry⟩⟩

theorem write_start (high : 4 ≤ off) : ∀ i < 4, write buf off bs i = buf i :=
  fun i lt => write_of_not_mem (by omega)

/-- The entry with another value. -/
def moved (e : XattrEntry) (r len : Nat) : XattrEntry := { e with valueOffset := r, valueLen := len }

/-- The entry stays in its place, and its value is put behind all entries where no other value is. -/
theorem Table.fits_moved (t : Table buf es vs) (found : es o = some e) (value : ValueAt r len)
    (free : ∀ v l, v ≠ e.valueOffset → vs v = some l → r + (len + 3) / 4 * 4 ≤ v ∨
    v + (l + 3) / 4 * 4 ≤ r)
    (ends : ∀ o' e', es o' = some e' → o' + e'.totalLen + 4 ≤ r) :
    Fits (update es o none) (update vs e.valueOffset none) o (moved e r len) where
  entryFree o' e' there := by
    obtain ⟨ne, there⟩ := of_update_none there
    rcases lt_or_gt_of_ne ne with lt | gt
    · exact .inr (t.entriesApart o' e' o e there found lt)
    · exact .inl (t.entriesApart o e o' e' found there gt)
  value := value
  valueFree v l there := free v l (of_update_none there).1 (of_update_none there).2
  before := ends o e found
  beforeValues v l there := t.before o e v l found (of_update_none there).2
  afterEntries o' e' there := ends o' e' (of_update_none there).2

/-- The buffer with a value at `r` and the entry at `o` changed to point there. -/
def writeMoved (buf : Nat → UInt8) (o : Nat) (e : XattrEntry) (r : Nat) (bytes : List UInt8) : Nat → UInt8 :=
  write (write buf r bytes) o (moved e r bytes.length).bytes

theorem Layout.replaced (h : x.Layout) (found : x.entries.lookup o = some e) (named : Named x.blocksBuf o e name)
    (fits : Fits (update x.entries.lookup o none) (update x.values.lookup e.valueOffset none) o
      (moved e r bytes.length)) (harmless : Harmless x.entries.lookup o r bytes.length) :
    Table (writeMoved x.blocksBuf o e r bytes) (update x.entries.lookup o (some (moved e r bytes.length)))
        (update (update x.values.lookup e.valueOffset none) r (some bytes.length)) ∧
      Bound x.blocksBuf x.entries.lookup name bytes (writeMoved x.blocksBuf o e r bytes)
        (update x.entries.lookup o (some (moved e r bytes.length))) := by
  have entry := h.entry o e found
  have low := entry.low
  have nameLen := e.totalLen_le
  have before : o + e.totalLen + 4 ≤ r := fits.before
  have size := length_bytes (moved e r bytes.length)
  have here : SameEntry x.blocksBuf (write x.blocksBuf r bytes) o e := .of_apart (by omega)
  have others := fun o' e' (there : x.entries.lookup o' = some e') (ne : o' ≠ o) => harmless.same x.blocksBuf there ne
  have table : Table (write x.blocksBuf r bytes) x.entries.lookup x.values.lookup := by
    refine h.rewrite (write_start (by omega)) fun o' e' there => ?_
    by_cases same : o' = o
    · subst same
      cases found.symm.trans there
      exact here
    · exact (others o' e' there same).entry
  have header := table.harmless_entry found (show (moved e r bytes.length).bytes.length ≤ e.totalLen by omega)
  have named' : Named (writeMoved x.blocksBuf o e r bytes) o (moved e r bytes.length) name := by
    refine ⟨named.index, named.len, ?_⟩
    rw [writeMoved, slice_write_of_apart (by omega)]
    exact (here.named.mpr named).bytes
  have replaced := h.replace found named (fun i lt => (write_start (by omega) i lt).trans (write_start (by omega) i lt))
    (fun o' e' there ne => ⟨(others o' e' there ne).entry.trans (header.same _ there ne).entry,
      (header.same _ there ne).value.trans (others o' e' there ne).value⟩)
    fits ⟨low, entry.aligned, size ▸ slice_write _ _ _, ⟨name, named'⟩, entry.block, entry.hash⟩ named'
  have value : slice (writeMoved x.blocksBuf o e r bytes) r bytes.length = bytes := by
    rw [writeMoved, slice_write_of_apart (by omega), slice_write]
  change _ ∧ Bound _ _ _ (slice (writeMoved x.blocksBuf o e r bytes) r bytes.length) _ _ at replaced
  rw [value] at replaced
  exact replaced

/-- The result of `set` from the new tables. -/
theorem SetEffect.of_bound (entries : x'.entries.lookup = es) (values : x'.values.lookup = vs)
    (table : Table x'.blocksBuf es vs) (frame : Frame x x')
    (bound : Bound x.blocksBuf x.entries.lookup name reader.bytes x'.blocksBuf es)
    (createOnly : flags.createOnly = true → ∀ old, ¬ x.Attr name old)
    (replaceOnly : flags.replaceOnly = true → ∃ old, x.Attr name old) (noticed : Noticed x x') :
    SetEffect x name reader flags (.ok ()) x' := by
  subst entries values
  exact ⟨table, frame, fun _ => bound, nofun, fun _ => createOnly, fun _ => replaceOnly, noticed⟩

section

variable (h : x.Layout) (found : x.entries.lookup o = some e) (named : Named x.blocksBuf o e name)
include h found named

theorem replace_in_place
    (nonempty : 0 < reader.bytes.length) (short : reader.bytes.length ≤ e.valueLen)
    (flag : flags.createOnly = false) :
    ∃ result x', x.replace o e reader flags = .ok (result, x') ∧ SetEffect x name reader flags result x' := by
  have owns := h.owns o e found
  have high := (h.value _ _ owns).high
  have nameLen := e.totalLen_le
  have before := h.before o e _ _ found owns
  have fits : Fits (update x.entries.lookup o none) (update x.values.lookup e.valueOffset none) o
      (moved e e.valueOffset reader.bytes.length) := by
    refine h.fits_moved found ⟨(h.value _ _ owns).aligned, nonempty, by omega⟩ (fun v l ne there => ?_)
      fun o' e' there => h.before o' e' _ _ there owns
    rcases lt_or_gt_of_ne ne with lt | gt
    · exact .inr (h.valuesApart _ _ _ _ there owns lt)
    · have := h.valuesApart _ _ _ _ owns there gt
      exact .inl (by omega)
  have same : ∀ bs : List UInt8, bs.length ≤ e.valueLen → ∀ o' e', x.entries.lookup o' = some e' →
      SameEntry x.blocksBuf (write x.blocksBuf e.valueOffset bs) o' e' := by
    intro bs le o' e' there
    by_cases same : o' = o
    · subst same
      cases found.symm.trans there
      exact .of_apart (by omega)
    · exact ((h.harmless_value found le).same x.blocksBuf there same).entry
  have noCreate : flags.createOnly = true → ∀ old, ¬ x.Attr name old := fun set => by
    rw [flag] at set
    cases set
  have present : flags.replaceOnly = true → ∃ old, x.Attr name old := fun _ => ⟨_, Layout.attr found named⟩
  unfold replace
  rw [flag, if_neg Bool.false_ne_true, if_pos short]
  rcases writeFrom_of_le (show e.valueOffset + reader.bytes.length ≤ 4096 by omega) x.blocksBuf
    with ⟨-, eq⟩ | ⟨fault, eq⟩
  · have harmless := h.harmless_value found short
    rw [eq]
    dsimp only
    split
    · next equal =>
      -- The entry and the tables stay as they are.
      have moved_eq : moved e e.valueOffset reader.bytes.length = e := by rw [equal]; rfl
      have here := same reader.bytes short o e found
      rw [moved_eq] at fits
      obtain ⟨table, bound⟩ := h.replace found named (write_start (by omega))
        (fun o' e' there ne => harmless.same x.blocksBuf there ne) fits
        ((h.entry o e found).congr here) (here.named.mpr named)
      rw [update_idem, ← found, update_eq_self, ← owns, update_eq_self] at table
      rw [← found, update_eq_self, ← equal, slice_write] at bound
      exact ⟨_, _, rfl, .of_bound rfl rfl table ⟨rfl, rfl⟩ bound noCreate present
        (.inr ⟨rfl, rfl, write_start (by omega), same reader.bytes short⟩)⟩
    · next shorter =>
      have small : reader.bytes.length % 2 ^ 32 = reader.bytes.length := Nat.mod_eq_of_lt (by omega)
      have size := length_bytes (moved e e.valueOffset reader.bytes.length)
      obtain ⟨table, bound⟩ := h.replaced found named fits harmless
      rw [update_idem] at table
      have fold : { e with valueLen := reader.bytes.length } = moved e e.valueOffset reader.bytes.length := rfl
      rw [small, fold, writeBytes_of_le (by omega)]
      exact ⟨_, _, rfl, .of_bound (lookup_insert_eq _ _ _) (lookup_insert_eq _ _ _) table
        ⟨rfl, rfl⟩ bound noCreate
        present (.inl rfl)⟩
  · have part : (reader.bytes.take reader.readable).length ≤ e.valueLen := by
      rw [length_take]
      omega
    rw [eq]
    refine ⟨_, _, rfl, h.rewrite (write_start (by omega)) (same _ part), ⟨rfl, rfl⟩, nofun,
      fun _ _ apart => ?_, nofun, nofun, .inr ⟨rfl, rfl, write_start (by omega), same _ part⟩⟩
    · have := apart fault _ (Layout.attr found named)
      rw [length_slice] at this
      omega

/-- The value is put into a new room. -/
theorem replace_moved (long : e.valueLen < reader.bytes.length) (flag : flags.createOnly = false) :
    ∃ result x', x.replace o e reader flags = .ok (result, x') ∧ SetEffect x name reader flags result x' := by
  unfold replace
  rw [flag, if_neg (not_le.mpr long)]
  rcases findRoomForNewValue_spec h reader.bytes.length with eq | ⟨r, eq, low, aligned, high, free, -⟩
  · rw [eq]
    exact ⟨_, _, rfl, .refl h⟩
  have ends : ∀ o' e', x.entries.lookup o' = some e' → o' + e'.totalLen + 4 ≤ r := fun o' e' there => by
    have := h.entry_le there
    omega
  have start := h.le_lastEntryEnd
  have harmless : ∀ k len, len ≤ reader.bytes.length → Harmless x.entries.lookup k r len := by
    refine fun k len short => ⟨by omega, fun o' e' there _ => ?_, fun o' e' there _ => ?_⟩
    · have := ends o' e' there
      exact .inl (by omega)
    · have := free _ _ (h.owns o' e' there)
      omega
  rw [eq, ok_bind]
  dsimp only
  rcases writeFrom_of_le (show r + reader.bytes.length ≤ 4096 by omega) x.blocksBuf with ⟨-, eq⟩ | ⟨fault, eq⟩
  · have fits := h.fits_moved found ⟨aligned, by omega, high⟩ (fun v l _ there => free v l there) ends
    obtain ⟨table, bound⟩ := h.replaced found named fits (harmless o _ le_rfl)
    have size := length_bytes (moved e r reader.bytes.length)
    have top := h.high o e found
    have nameLen := e.totalLen_le
    have fold : { e with valueOffset := r % 2 ^ 16, valueLen := reader.bytes.length % 2 ^ 32 } =
        moved e r reader.bytes.length := by
      rw [Nat.mod_eq_of_lt (by omega), Nat.mod_eq_of_lt (by omega)]
      rfl
    rw [eq]
    dsimp only
    rw [fold, writeBytes_of_le (by omega)]
    refine ⟨_, _, rfl, .of_bound (lookup_insert_eq _ _ _) ?_ table ⟨rfl, rfl⟩ bound (fun set => ?_)
      (fun _ => ⟨_, Layout.attr found named⟩) (.inl rfl)⟩
    · rw [lookup_insert_eq, lookup_erase_eq]
    · rw [flag] at set
      cases set
  · rw [eq]
    refine ⟨_, _, rfl, .of_rewrite h (write_start (by omega)) fun o' e' there =>
      (harmless (o' + 1) _ ?_).same _ there (ne_of_lt (Nat.lt_succ_self _))⟩
    rw [length_take]
    omega

theorem replace_spec (nonempty : 0 < reader.bytes.length) :
    ∃ result x', x.replace o e reader flags = .ok (result, x') ∧ SetEffect x name reader flags result x' := by
  cases flag : flags.createOnly with
  | true =>
    unfold replace
    rw [flag]
    exact ⟨_, _, rfl, .refl h⟩
  | false =>
    rcases lt_or_ge e.valueLen reader.bytes.length with long | short
    · exact replace_moved h found named long flag
    · exact replace_in_place h found named nonempty short flag

end

/-- The entry and the value of a new attribute fit into the space between entries and values each on its own,
but not both. -/
def Crowded (x : Xattr) (nameLen valueLen : Nat) : Prop :=
  XattrEntry.targetLen nameLen ≤ x.space ∧ alignUp valueLen XATTR_ALIGN ≤ x.space ∧
    x.space < XattrEntry.targetLen nameLen + alignUp valueLen XATTR_ALIGN

instance (x : Xattr) (nameLen valueLen : Nat) : Decidable (x.Crowded nameLen valueLen) := by
  unfold Crowded
  infer_instance

/-- The buffer with a new entry and its name. -/
def writeEntry (buf : Nat → UInt8) (p : Nat) (entry : XattrEntry) (name : XattrName) : Nat → UInt8 :=
  write (write buf p entry.bytes) (p + 16) name.fullName

theorem writeNew_of_le (entry : XattrEntry) (name : XattrName) (buf : Nat → UInt8)
    (le : p + 16 + name.fullName.length ≤ 4096) (le' : r + reader.bytes.length ≤ 4096) :
    (reader.bytes.length ≤ reader.readable ∧
        writeNew p entry name reader r buf = .ok () (write (writeEntry buf p entry name) r reader.bytes)) ∨
      (reader.readable < reader.bytes.length ∧ writeNew p entry name reader r buf =
        .error ⟨.efault, none⟩ (write (writeEntry buf p entry name) r (reader.bytes.take reader.readable))) := by
  have size := entry.length_bytes
  have first := writeBytes_of_le (show p + entry.bytes.length ≤ 4096 by omega) buf
  have second := writeBytes_of_le le (write buf p entry.bytes)
  have run : writeNew p entry name reader r buf = writeFrom r reader (writeEntry buf p entry name) := by
    change EStateM.bind _ _ _ = _
    rw [EStateM.bind, first]
    change EStateM.bind _ _ _ = _
    rw [EStateM.bind, XATTR_ENTRY_SIZE, second]
    rfl
  rw [run]
  exact writeFrom_of_le le' _

/-- Rooms for a new entry and its value that are apart. -/
structure Rooms (x : Xattr) (nameLen valueLen p r : Nat) : Prop where
  entry : EntryRoom x (XattrEntry.targetLen nameLen) p
  value : ValueRoom x ((valueLen + 3) / 4 * 4) r
  before : p + XattrEntry.targetLen nameLen + 4 ≤ r

/-- Unless one of the rooms lies between others, both are in the space, which is long enough for both. -/
theorem Rooms.of_not_crowded {nameLen : Nat} (apart : ¬ x.Crowded nameLen valueLen)
    (entry : EntryRoom x (targetLen nameLen) p) (value : ValueRoom x ((valueLen + 3) / 4 * 4) r) :
    Rooms x nameLen valueLen p r := by
  refine ⟨entry, value, ?_⟩
  have high := entry.high
  have low := value.low
  unfold Crowded at apart
  rw [alignUp_eq] at apart
  rcases entry.inside with inside | ⟨inside, rfl⟩
  · omega
  rcases value.inside with inside' | ⟨inside', rfl⟩
  · omega
  · unfold space at *
    omega

/-- Writing to the rooms leaves the other entries and values. -/
theorem Rooms.same (h : x.Layout) (rooms : Rooms x name.fullName.length valueLen p r)
    (entry : XattrEntry) (le : bs.length ≤ valueLen) (there : x.entries.lookup o = some e) :
    SameAttr x.blocksBuf (write (writeEntry x.blocksBuf p entry name) r bs) o e := by
  have size := entry.length_bytes
  have nameLen := e.totalLen_le
  have ends := h.entry_le there
  have low := rooms.value.low
  have high := rooms.entry.high
  have free := rooms.entry.free o e there
  have free' := rooms.value.free _ _ (h.owns o e there)
  have first := firstValueStart_le (h.owns o e there)
  rw [targetLen_eq] at high free
  constructor
  · exact ((SameEntry.of_apart (by omega)).trans (.of_apart (by omega))).trans (.of_apart (by omega))
  · rw [slice_write_of_apart (by omega), writeEntry, slice_write_of_apart (by omega), slice_write_of_apart (by omega)]

theorem Rooms.start (rooms : Rooms x name.fullName.length valueLen p r) (entry : XattrEntry)
    (bs : List UInt8) : ∀ i < 4, write (writeEntry x.blocksBuf p entry name) r bs i = x.blocksBuf i := by
  intro i lt
  have low := rooms.entry.low
  have before := rooms.before
  exact ((write_start (by omega) i lt).trans (write_start (by omega) i lt)).trans (write_start (by omega) i lt)

def newEntry (name : XattrName) (r len : Nat) : XattrEntry := ⟨name.fullName.length, name.ns.index, r, 0, len, 0⟩

/-- The buffer with a new attribute. -/
def writeAttr (buf : Nat → UInt8) (p r : Nat) (name : XattrName) (bytes : List UInt8) : Nat → UInt8 :=
  write (writeEntry buf p (newEntry name r bytes.length) name) r bytes

section

variable (h : x.Layout) (absent : ∀ o e, x.entries.lookup o = some e → ¬ Named x.blocksBuf o e name)
include h absent

theorem Layout.created (nonempty : 0 < bytes.length) (rooms : Rooms x name.fullName.length bytes.length p r) :
    Table (writeAttr x.blocksBuf p r name bytes) (update x.entries.lookup p (some (newEntry name r bytes.length)))
        (update x.values.lookup r (some bytes.length)) ∧
      Bound x.blocksBuf x.entries.lookup name bytes (writeAttr x.blocksBuf p r name bytes)
        (update x.entries.lookup p (some (newEntry name r bytes.length))) := by
  have size := (newEntry name r bytes.length).length_bytes
  have before := rooms.before
  have same : ∀ o e, x.entries.lookup o = some e →
    SameAttr x.blocksBuf (writeAttr x.blocksBuf p r name bytes) o e :=
    fun o e there => rooms.same h (newEntry name r bytes.length) le_rfl there
  have table : Table (writeAttr x.blocksBuf p r name bytes) _ _ := h.rewrite (rooms.start _ _) fun o e there =>
    (same o e there).entry
  have named : Named (writeAttr x.blocksBuf p r name bytes) p (newEntry name r bytes.length) name := by
    rw [targetLen_eq] at before
    refine ⟨rfl, rfl, ?_⟩
    change slice _ (p + 16) name.fullName.length = _
    rw [writeAttr, slice_write_of_apart (by omega), writeEntry, slice_write]
  have stored : slice (writeAttr x.blocksBuf p r name bytes) p 16 = (newEntry name r bytes.length).bytes := by
    rw [targetLen_eq] at before
    rw [writeAttr, slice_write_of_apart (by omega), writeEntry, slice_write_of_apart (by omega), ← size, slice_write]
  have fits : Fits x.entries.lookup x.values.lookup p (newEntry name r bytes.length) := by
    refine ⟨rooms.entry.free, ⟨rooms.value.aligned, nonempty, rooms.value.high⟩, rooms.value.free, before,
      fun v l there => le_trans rooms.entry.high (firstValueStart_le there), fun o e there => ?_⟩
    have := h.entry_le there
    have := rooms.value.low
    change o + e.totalLen + 4 ≤ r
    omega
  have absent' : ∀ o e, x.entries.lookup o = some e → ¬ Named (writeAttr x.blocksBuf p r name bytes) o e name :=
    fun o e there named' => absent o e there ((same o e there).entry.named.mp named')
  refine ⟨table.add fits ⟨rooms.entry.low, rooms.entry.aligned, stored, ⟨name, named⟩, rfl,
    rfl⟩ named absent',
    fun name' bytes' => ?_⟩
  have value : slice (writeAttr x.blocksBuf p r name bytes) r bytes.length = bytes := slice_write _ _ _
  have binds := table.binds_add fits named name' bytes'
  change _ ↔ (_ ∧ _ = slice (writeAttr x.blocksBuf p r name bytes) r bytes.length) ∨ _ at binds
  rw [value, binds_rewrite same] at binds
  refine binds.trans (or_congr_right ⟨fun old => ⟨?_, old⟩, fun old => old.2⟩)
  rintro rfl
  obtain ⟨o, e, there, named', -⟩ := old
  exact absent o e there named'

theorem create_spec
    (nonempty : 0 < reader.bytes.length) (apart : ¬ x.Crowded name.fullName.length reader.bytes.length) :
    ∃ result x', x.create name reader flags = .ok (result, x') ∧ SetEffect x name reader flags result x' := by
  unfold create
  split
  · exact ⟨_, _, rfl, .refl h⟩
  next flag =>
  rcases findRoomForNewEntry_spec h name.fullName.length with eq | ⟨p, eq, entryRoom⟩
  · rw [eq]
    exact ⟨_, _, rfl, .refl h⟩
  rw [eq, ok_bind]
  dsimp only
  rcases findRoomForNewValue_spec h reader.bytes.length with eq | ⟨r, eq, valueRoom⟩
  · rw [eq]
    exact ⟨_, _, rfl, .refl h⟩
  rw [eq, ok_bind]
  dsimp only
  have rooms := Rooms.of_not_crowded apart entryRoom valueRoom
  have high := entryRoom.high
  have high' := valueRoom.high
  have bound := h.firstValueStart_bound
  have short := name.short
  have fold : ⟨name.fullName.length % 2 ^ 8, name.ns.index, r % 2 ^ 16, 0, reader.bytes.length % 2 ^ 32, 0⟩ =
      newEntry name r reader.bytes.length := by
    rw [Nat.mod_eq_of_lt (by omega), Nat.mod_eq_of_lt (by omega), Nat.mod_eq_of_lt (by omega)]
    rfl
  rw [targetLen_eq] at high
  rw [fold]
  rcases writeNew_of_le (newEntry name r reader.bytes.length) name x.blocksBuf
    (show p + 16 + name.fullName.length ≤ 4096 by omega)
    (show r + reader.bytes.length ≤ 4096 by omega) with ⟨-, eq⟩ | ⟨-, eq⟩
  · obtain ⟨table, bound⟩ := h.created absent nonempty rooms
    rw [eq]
    refine ⟨_, _, rfl, .of_bound (lookup_insert_eq _ _ _) (lookup_insert_eq _ _ _) table ⟨rfl, rfl⟩ bound
      (fun _ old => ?_) (fun set => absurd set flag) (.inl rfl)⟩
    rintro ⟨o, e, there, named, -⟩
    exact absent o e there named
  · have part : (reader.bytes.take reader.readable).length ≤ reader.bytes.length := by
      rw [length_take]
      omega
    rw [eq]
    exact ⟨_, _, rfl, .of_rewrite h (rooms.start _ _) fun o e there => rooms.same h _ part there⟩

end

/-- `set` after the block is there. -/
theorem setLoaded_spec (flags : XattrSetFlags) (h : x.Layout) (nonempty : 0 < reader.bytes.length)
    (apart : (∀ old, ¬ x.Attr name old) → ¬ x.Crowded name.fullName.length reader.bytes.length) :
    ∃ result x', x.setLoaded name reader flags = .ok (result, x') ∧ SetEffect x name reader flags result x' := by
  unfold setLoaded
  rcases findEntry_spec h name with ⟨o, e, eq, found, named⟩ | ⟨eq, absent⟩
  · rw [eq]
    exact replace_spec h found named nonempty
  rw [eq]
  refine create_spec h absent nonempty (apart fun old => ?_)
  rintro ⟨o, e, there, named, -⟩
  exact absent o e there named

/-! ### `get` and `remove` -/

/-- The value of an attribute. -/
def lookup (x : Xattr) (name : XattrName) : Option (List UInt8) :=
  match x.findEntry name with
  | .ok (some (_, e)) => some (slice x.blocksBuf e.valueOffset e.valueLen)
  | _ => none

theorem lookup_eq_some (h : x.Layout) : x.lookup name = some bytes ↔ x.Attr name bytes := by
  unfold lookup
  rcases findEntry_spec h name with ⟨o, e, eq, found, named⟩ | ⟨eq, absent⟩
  · rw [eq]
    constructor
    · intro value
      exact ⟨o, e, found, named, some.inj value⟩
    rintro ⟨o', e', found', named', rfl⟩
    obtain rfl := h.distinct o e o' e' name found found' named named'
    cases found.symm.trans found'
    rfl
  · rw [eq]
    constructor
    · intro value
      cases value
    · rintro ⟨o, e, found, named, -⟩
      exact absurd named (absent o e found)

theorem lookup_eq_none (h : x.Layout) : x.lookup name = none ↔ ∀ bytes, ¬ x.Attr name bytes := by
  rw [eq_none_iff_forall_ne_some]
  exact forall_congr' fun bytes => not_congr (lookup_eq_some h)

/-- What `get` returns for a value. -/
def answer (writer : VmWriter) (value : List UInt8) : Except Error (Nat × List UInt8) :=
  if writer.avail = 0 then .ok (value.length, [])
  else if writer.avail < value.length then .error ⟨.erange, some "the xattr value buffer is too small"⟩
  else if writer.writable < value.length then .error ⟨.efault, none⟩
  else .ok (value.length, value)

theorem getLoaded_spec (h : x.Layout) (name : XattrName) (writer : VmWriter) :
    (x.lookup name = none ∧ x.getLoaded name writer = .ok (.error ⟨.enodata, none⟩, x)) ∨
      ∃ value, x.lookup name = some value ∧ x.getLoaded name writer = .ok (answer writer value, x) := by
  unfold getLoaded lookup
  rcases findEntry_spec h name with ⟨o, e, eq, found, -⟩ | ⟨eq, -⟩
  · refine .inr ⟨_, by rw [eq], ?_⟩
    have value := h.value _ _ (h.owns o e found)
    have high := value.high
    have fits : min e.valueLen (capacityBytes - e.valueOffset) = e.valueLen := by
      rw [capacityBytes]
      omega
    have inside : ¬ capacityBytes < e.valueOffset := by
      rw [capacityBytes]
      omega
    rw [eq, ok_bind]
    dsimp only
    unfold answer
    rw [length_slice, fits]
    split
    · rfl
    split
    · rfl
    · split
      · rfl
      · rfl
  · exact .inl ⟨by rw [eq], by rw [eq]; rfl⟩

theorem removeLoaded_spec (h : x.Layout) (name : XattrName) : (x.lookup name = none ∧
        x.removeLoaded name = .ok (.error ⟨.enodata, some "the target xattr does not exist"⟩, x)) ∨
      ∃ x', x.lookup name ≠ none ∧ x.removeLoaded name = .ok (.ok (), x') ∧ x'.Layout ∧ Frame x x' ∧
        x'.dirty = true ∧
        ∀ name' bytes, x'.Attr name' bytes ↔ name' ≠ name ∧ x.Attr name' bytes := by
  unfold removeLoaded
  rcases findEntry_spec h name with ⟨o, e, eq, found, named⟩ | ⟨eq, absent⟩
  · have high := h.high o e found
    have low := (h.entry o e found).low
    have fits : min e.totalLen (capacityBytes - o) = e.totalLen := by
      rw [capacityBytes]
      omega
    have size : (replicate e.totalLen (0 : UInt8)).length = e.totalLen := length_replicate
    have harmless := h.harmless_entry found (le_of_eq size)
    have same := fun o' e' (there : update x.entries.lookup o none o' = some e') =>
      harmless.same x.blocksBuf (of_update_none there).2 (of_update_none there).1
    rw [eq, ok_bind]
    dsimp only
    rw [if_neg (by rw [capacityBytes]; omega), fits]
    refine .inr ⟨_, ?_, rfl, ?_, ⟨rfl, rfl⟩, rfl, ?_⟩
    · unfold lookup
      rw [eq]
      exact some_ne_none _
    · unfold Layout
      rw [lookup_erase_eq, lookup_erase_eq]
      exact (h.erase found).rewrite (write_start (by omega)) fun o' e' there => (same o' e' there).entry
    · intro name' bytes
      unfold Attr
      rw [lookup_erase_eq, binds_rewrite same]
      exact h.binds_erase found named name' bytes
  · refine .inl ⟨?_, by rw [eq]; rfl⟩
    unfold lookup
    rw [eq]

end Xattr

end OmegaOsx.Ext2
