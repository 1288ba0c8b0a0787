import OmegaOsx.Ext2.XattrCalls

/-!
# Attributes after a reload

`build_entries_from_buf` looks for entries at every fourth byte, also where values are or were. What it
finds is what was stored exactly if no position outside the entries looks like an entry (`NoGhosts`), and
if `flush` has written the values: it does nothing unless the cache is dirty, and a value that is replaced
by one of the same length does not make it dirty (`reload_same_iff`).

`forged_attribute` is a value of the user that comes back as an attribute of the trusted namespace.
-/

namespace OmegaOsx.Ext2

open ByteBuffer XattrEntry SortedMap LittleEndian Option List XattrNamespace
open MlsDisk (exists_ok_of_map)

/-- The fields fit into their widths. -/
structure XattrEntry.Narrow (e : XattrEntry) : Prop where
  nameLen : e.nameLen < 256 ^ 1
  nameIndex : e.nameIndex < 256 ^ 1
  valueOffset : e.valueOffset < 256 ^ 2
  valueBlock : e.valueBlock < 256 ^ 4
  valueLen : e.valueLen < 256 ^ 4
  hash : e.hash < 256 ^ 4

/-- An entry is read back as it was written. -/
theorem XattrEntry.read_eq {buf : Nat → UInt8} {o : Nat} {e : XattrEntry} (narrow : e.Narrow)
    (stored : slice buf o 16 = e.bytes) :
    read buf o = e := by
  have fields : slice buf o (1 + (1 + (2 + (4 + (4 + 4))))) = toBytes 1 e.nameLen ++
      (toBytes 1 e.nameIndex ++ (toBytes 2 e.valueOffset ++
        (toBytes 4 e.valueBlock ++ (toBytes 4 e.valueLen ++ toBytes 4 e.hash)))) := by
    rw [stored, bytes]
    simp only [append_assoc]
  rw [slice_add, slice_add, slice_add, slice_add, slice_add] at fields
  obtain ⟨nameLen, fields⟩ := append_inj fields (by simp)
  obtain ⟨nameIndex, fields⟩ := append_inj fields (by simp)
  obtain ⟨valueOffset, fields⟩ := append_inj fields (by simp)
  obtain ⟨valueBlock, fields⟩ := append_inj fields (by simp)
  obtain ⟨valueLen, hash⟩ := append_inj fields (by simp)
  unfold read
  rw [nameLen, nameIndex, valueOffset, valueBlock, valueLen, hash]
  rw [ofBytes_toBytes_of_lt narrow.nameLen, ofBytes_toBytes_of_lt narrow.nameIndex,
    ofBytes_toBytes_of_lt narrow.valueOffset, ofBytes_toBytes_of_lt narrow.valueBlock,
    ofBytes_toBytes_of_lt narrow.valueLen, ofBytes_toBytes_of_lt narrow.hash]

namespace Xattr

/-! ### The scan -/

/-- The bytes at a position pass the checks of `build_entries_from_buf`. -/
structure LooksLikeEntry (buf : Nat → UInt8) (p : Nat) : Prop where
  nameLen : (XattrEntry.read buf p).nameLen ≠ 0
  nameIndex : XattrNamespace.tryFrom (XattrEntry.read buf p).nameIndex ≠ none
  value : (XattrEntry.read buf p).valueOffset + (XattrEntry.read buf p).valueLen ≤ 4096

/-- No position from `start` on that the scan can reach and that is not in an entry looks like an entry. -/
def NoGhosts (es : Nat → Option XattrEntry) (buf : Nat → UInt8) (start : Nat) : Prop :=
  ∀ p, start ≤ p → p < 4076 → p % 4 = 0 → (∀ o e, es o = some e → ¬ (o ≤ p ∧ p < o + e.totalLen)) →
    ¬ LooksLikeEntry buf p

variable {x x' : Xattr} {buf : Nat → UInt8} {es : Nat → Option XattrEntry} {vs : Nat → Option Nat}
  {o pos fuel : Nat}
  {e : XattrEntry} {table : SortedMap Nat XattrEntry × SortedMap Nat Nat}

theorem looksLikeEntry_iff (p : Nat) : LooksLikeEntry buf p ↔
    ¬ ((read buf p).nameLen = 0 ∨ tryFrom (read buf p).nameIndex = none ∨
      capacityBytes < (read buf p).valueOffset + (read buf p).valueLen) := by
  rw [not_or, not_or, not_lt]
  exact ⟨fun ⟨a, b, c⟩ => ⟨a, b, c⟩, fun ⟨a, b, c⟩ => ⟨a, b, c⟩⟩

theorem totalLen_pos (e : XattrEntry) : 16 ≤ e.totalLen := by
  rw [totalLen, targetLen_eq]
  omega

/-- The scan inserts no entry before its position. -/
theorem buildFrom_below {q : Nat} (below : q < pos) : (buildFrom buf fuel pos table).1.lookup q = table.1.lookup q := by
  induction fuel generalizing pos table with
  | zero => rfl
  | succ fuel ih =>
    rw [buildFrom]
    split
    · dsimp only
      split
      · exact ih (Nat.lt_add_right _ below)
      · rw [ih (Nat.lt_add_right _ below), lookup_insert, if_neg (by omega)]
    · rfl

/-- A step over bytes that do not look like an entry. -/
theorem buildFrom_skip (inside : pos < 4076) (other : ¬ LooksLikeEntry buf pos) :
    buildFrom buf (fuel + 1) pos table = buildFrom buf fuel (pos + 4) table := by
  have inside : pos < capacityBytes - XATTR_ENTRY_VALUE_GAP - XATTR_ENTRY_SIZE := inside
  rw [buildFrom, if_pos inside]
  exact if_pos (Decidable.not_not.mp (other ∘ (looksLikeEntry_iff pos).mpr))

/-- A step over bytes that look like an entry. -/
theorem buildFrom_take (inside : pos < 4076) (looks : LooksLikeEntry buf pos) :
    buildFrom buf (fuel + 1) pos table = buildFrom buf fuel (pos + (read buf pos).totalLen)
      (table.1.insert pos (read buf pos), table.2.insert (read buf pos).valueOffset (read buf pos).valueLen) := by
  have inside : pos < capacityBytes - XATTR_ENTRY_VALUE_GAP - XATTR_ENTRY_SIZE := inside
  rw [buildFrom, if_pos inside]
  exact if_neg ((looksLikeEntry_iff pos).mp looks)

theorem buildFrom_end (outside : ¬ pos < 4076) : buildFrom buf fuel pos table = table := by
  cases fuel with
  | zero => rfl
  | succ fuel => exact if_neg outside

theorem Table.narrow (t : Table buf es vs) (found : es o = some e) : e.Narrow := by
  have entry := t.entry o e found
  obtain ⟨name, named⟩ := entry.named
  have value := (t.value _ _ (t.owns o e found)).high
  refine ⟨?_, ?_, by omega, ?_, by omega, ?_⟩
  · rw [named.len]
    have := name.short
    omega
  · rw [named.index]
    cases name.ns <;> decide
  · rw [entry.block]
    decide
  · rw [entry.hash]
    decide

/-- An entry of the table is found where it is. -/
theorem Table.looks (t : Table buf es vs) (found : es o = some e) : read buf o = e ∧ LooksLikeEntry buf o := by
  have entry := t.entry o e found
  have read := read_eq (t.narrow found) entry.stored
  obtain ⟨name, named⟩ := entry.named
  refine ⟨read, ⟨?_, ?_, ?_⟩⟩
  · rw [read, named.len]
    exact ne_of_gt name.length_pos
  · rw [read, named.index]
    cases name.ns <;> exact some_ne_none _
  · rw [read]
    have := (t.value _ _ (t.owns o e found)).high
    omega

/-- A position that is not inside an entry. -/
def Boundary (es : Nat → Option XattrEntry) (pos : Nat) : Prop :=
  pos % 4 = 0 ∧ ∀ o e, es o = some e → o < pos → o + e.totalLen ≤ pos

theorem Table.boundary_entry (t : Table buf es vs) (found : es pos = some e) : Boundary es (pos + e.totalLen) := by
  have aligned := (t.entry pos e found).aligned
  refine ⟨?_, fun o e' there lt => ?_⟩
  · rw [totalLen, targetLen_eq]
    omega
  rcases lt_trichotomy o pos with before | rfl | after
  · have := t.entriesApart o e' pos e there found before
    omega
  · cases found.symm.trans there
    exact le_rfl
  · have := t.entriesApart pos e o e' found there after
    omega

theorem Table.boundary_skip (t : Table buf es vs) (boundary : Boundary es pos)
    (none : es pos = none) : Boundary es (pos + 4) := by
  refine ⟨by have := boundary.1; omega, fun o e there lt => ?_⟩
  have aligned := (t.entry o e there).aligned
  have := boundary.1
  by_cases before : o < pos
  · have := boundary.2 o e there before
    omega
  · obtain rfl : o = pos := by omega
    rw [none] at there
    cases there

theorem NoGhosts.mono {start : Nat} (h : NoGhosts es buf pos) (le : pos ≤ start) : NoGhosts es buf start :=
  fun p low => h p (le_trans le low)

/-- Positions in an entry do not count. -/
theorem NoGhosts.of_entry (found : es pos = some e) (h : NoGhosts es buf (pos + e.totalLen)) : NoGhosts es buf pos := by
  intro p low high aligned outside
  refine h p ?_ high aligned outside
  have := outside pos e found
  omega

theorem NoGhosts.of_skip (boundary : pos % 4 = 0) (other : ¬ LooksLikeEntry buf pos) (h : NoGhosts es buf (pos + 4)) :
    NoGhosts es buf pos := by
  intro p low high aligned outside
  rcases eq_or_lt_of_le low with rfl | lt
  · exact other
  · exact h p (by omega) high aligned outside

/-- An entry lies within the positions of the scan. -/
theorem Table.entry_lt (t : Table buf es vs) (found : es o = some e) : o < 4076 := by
  obtain ⟨name, named⟩ := (t.entry o e found).named
  have pos := name.length_pos
  have high := t.high o e found
  rw [totalLen, targetLen_eq, named.len] at high
  omega

theorem Table.none_of_le (t : Table buf es vs) {q : Nat} (le : 4076 ≤ q) : es q = none := by
  cases found : es q with
  | none => rfl
  | some e =>
    have := t.entry_lt found
    omega

theorem Boundary.outside (boundary : Boundary es pos) (none : es pos = none) (o : Nat)
    (e : XattrEntry) (found : es o = some e) :
    ¬ (o ≤ pos ∧ pos < o + e.totalLen) := by
  rintro ⟨le, lt⟩
  rcases eq_or_lt_of_le le with rfl | before
  · rw [none] at found
    cases found
  · have := boundary.2 o e found before
    omega

/-- The scan finds the entries of the table and no others exactly if there are no ghosts. -/
theorem buildFrom_iff (fuel : Nat) (table : SortedMap Nat XattrEntry × SortedMap Nat Nat)
    (t : Table buf es vs) (boundary : Boundary es pos) (enough : 4076 ≤ pos + 4 * fuel)
    (fresh : ∀ q, pos ≤ q → table.1.lookup q = none) :
    (∀ q, pos ≤ q → (buildFrom buf fuel pos table).1.lookup q = es q) ↔ NoGhosts es buf pos := by
  induction fuel generalizing pos table with
  | zero =>
    refine ⟨fun _ p low high => absurd high (by omega), fun _ q le => ?_⟩
    rw [t.none_of_le (by omega)]
    exact fresh q le
  | succ fuel ih =>
    by_cases inside : pos < 4076
    · have below : ∀ {next q : Nat} {table' : SortedMap Nat XattrEntry × SortedMap Nat Nat}, q < next →
          (buildFrom buf fuel next table').1.lookup q = table'.1.lookup q := buildFrom_below
      cases found : es pos with
      | some e =>
        obtain ⟨read, looks⟩ := t.looks found
        have size := totalLen_pos e
        rw [buildFrom_take inside looks, read]
        have rest := ih (table.1.insert pos e, table.2.insert e.valueOffset e.valueLen) (t.boundary_entry found)
          (by omega) fun q le => by
            rw [lookup_insert, if_neg (by omega)]
            exact fresh q (by omega)
        refine ⟨fun same => .of_entry found (rest.mp fun q le => same q (by omega)), fun none q le => ?_⟩
        by_cases near : q < pos + e.totalLen
        · rw [below near, lookup_insert]
          split
          · next same => rw [same, found]
          · next other =>
            rw [fresh q le]
            cases there : es q with
            | none => rfl
            | some e' =>
              have := t.entriesApart pos e q e' found there (by omega)
              omega
        · exact rest.mpr (none.mono (by omega)) q (by omega)
      | none =>
        by_cases looks : LooksLikeEntry buf pos
        · rw [buildFrom_take inside looks]
          refine ⟨fun same => ?_, fun none => ?_⟩
          · have size := totalLen_pos (read buf pos)
            have here := same pos le_rfl
            rw [below (by omega), lookup_insert, if_pos rfl, found] at here
            cases here
          · exact absurd looks (none pos le_rfl inside boundary.1 (boundary.outside found))
        rw [buildFrom_skip inside looks]
        have rest := ih table (t.boundary_skip boundary found) (by omega) fun q le => fresh q (by omega)
        refine ⟨fun same => .of_skip boundary.1 looks (rest.mp fun q le => same q (by omega)), fun none q le => ?_⟩
        by_cases near : q < pos + 4
        · rw [below near, fresh q le]
          cases there : es q with
          | none => rfl
          | some e' =>
            have aligned := (t.entry q e' there).aligned
            have := boundary.1
            obtain rfl : q = pos := by omega
            rw [found] at there
            cases there
        · exact rest.mpr (none.mono (by omega)) q (by omega)
    · rw [buildFrom_end inside]
      refine ⟨fun _ p low high => absurd high (by omega), fun _ q le => ?_⟩
      rw [t.none_of_le (by omega)]
      exact fresh q le

/-- Without ghosts, the scan finds the values of the entries. -/
theorem buildFrom_values (fuel : Nat) (table : SortedMap Nat XattrEntry × SortedMap Nat Nat)
    (t : Table buf es vs) (boundary : Boundary es pos) (enough : 4076 ≤ pos + 4 * fuel)
    (none : NoGhosts es buf pos) :
    (∀ o e, pos ≤ o → es o = some e →
      (buildFrom buf fuel pos table).2.lookup e.valueOffset = some e.valueLen) ∧
      ∀ v, (∀ o e, pos ≤ o → es o = some e → e.valueOffset ≠ v) →
        (buildFrom buf fuel pos table).2.lookup v = table.2.lookup v := by
  induction fuel generalizing pos table with
  | zero =>
    refine ⟨fun o e le found => ?_, fun _ _ => rfl⟩
    have := t.entry_lt found
    omega
  | succ fuel ih =>
    by_cases inside : pos < 4076
    · cases found : es pos with
      | some e =>
        obtain ⟨read, looks⟩ := t.looks found
        have size := totalLen_pos e
        rw [buildFrom_take inside looks, read]
        obtain ⟨own, others⟩ := ih (table.1.insert pos e, table.2.insert e.valueOffset e.valueLen)
          (t.boundary_entry found) (by omega) (none.mono (by omega))
        refine ⟨fun o e' le there => ?_, fun v free => ?_⟩
        · rcases eq_or_lt_of_le le with rfl | lt
          · cases found.symm.trans there
            rw [others, lookup_insert, if_pos rfl]
            intro o' e' le' there' same
            have := t.unique o' e' pos e there' found same
            omega
          · exact own o e' (t.entriesApart pos e o e' found there lt) there
        · rw [others v fun o e' le there => free o e' (by omega) there, lookup_insert,
            if_neg fun same => free pos e le_rfl found same.symm]
      | none =>
        have looks := none pos le_rfl inside boundary.1 (boundary.outside found)
        rw [buildFrom_skip inside looks]
        obtain ⟨own, others⟩ := ih table (t.boundary_skip boundary found) (by omega) (none.mono (by omega))
        have later : ∀ o e, pos ≤ o → es o = some e → pos + 4 ≤ o := fun o e le there => by
          have aligned := (t.entry o e there).aligned
          have := boundary.1
          have : o ≠ pos := by
            rintro rfl
            rw [found] at there
            cases there
          omega
        exact ⟨fun o e le there => own o e (later o e le there) there,
          fun v free => others v fun o e le there => free o e (by omega) there⟩
    · rw [buildFrom_end inside]
      refine ⟨fun o e le found => ?_, fun _ _ => rfl⟩
      have := t.entry_lt found
      omega

/-! ### Flushing and loading -/

variable {dev dev' : Device}

/-- The attribute block on the device after `flush`. -/
def stored (dev : Device) (x : Xattr) : Nat → UInt8 := if x.dirty then x.blocksBuf else dev.blocks x.bid

/-- The block on the device has the entries of the cache, unless it is about to be written. -/
def Saved (dev : Device) (x : Xattr) : Prop := x.dirty = false → x.bid ≠ 0 →
  (∀ i < 4, dev.blocks x.bid i = x.blocksBuf i) ∧
    ∀ o e, x.entries.lookup o = some e → SameEntry x.blocksBuf (dev.blocks x.bid) o e

/-- The values are on the device after `flush`: the cache is dirty, or the block has them already. -/
def Written (dev : Device) (x : Xattr) : Prop := x.dirty = true ∨
  ∀ o e, x.entries.lookup o = some e →
    slice (dev.blocks x.bid) e.valueOffset e.valueLen = slice x.blocksBuf e.valueOffset e.valueLen

variable (group : Nat)

/-- The inode is written back and loaded again. -/
def reload (dev : Device) (x : Xattr) : Res (Outcome (Device × Xattr) Unit) :=
  lazyInit group (flush dev x).1 (Xattr.new (flush dev x).2.bid)

/-- Two tables with the same attributes. -/
structure SameTable (x y : Xattr) : Prop where
  entries : y.entries.lookup = x.entries.lookup
  values : y.values.lookup = x.values.lookup
  attributes : y.lookup = x.lookup

theorem flush_bid (dev : Device) (x : Xattr) : (flush dev x).2.bid = x.bid := by
  unfold flush
  split
  · rfl
  · rfl

theorem flush_blocks (dev : Device) (x : Xattr) : (flush dev x).1.blocks x.bid = stored dev x := by
  unfold flush stored
  split
  · exact Function.update_self _ _ _
  · rfl

theorem Saved.stored (saved : Saved dev x) (bid : x.bid ≠ 0) : (∀ i < 4, stored dev x i = x.blocksBuf i) ∧
    ∀ o e, x.entries.lookup o = some e → SameEntry x.blocksBuf (Xattr.stored dev x) o e := by
  unfold Xattr.stored
  cases dirty : x.dirty with
  | true => exact ⟨fun _ _ => rfl, fun _ _ _ _ _ _ => rfl⟩
  | false => exact saved dirty bid

theorem written_iff : Written dev x ↔ ∀ o e, x.entries.lookup o = some e →
    slice (stored dev x) e.valueOffset e.valueLen = slice x.blocksBuf e.valueOffset e.valueLen := by
  unfold Written stored
  cases x.dirty with
  | true => exact ⟨fun _ _ _ _ => rfl, fun _ => .inl rfl⟩
  | false => exact ⟨fun h => h.resolve_left Bool.false_ne_true, .inr⟩

theorem lazyInit_load {bid : Nat} (nonzero : bid ≠ 0)
    (magic : slice (dev.blocks bid) 0 4 = toBytes 4 XattrHeader.EXT2_XATTR_MAGIC) :
    ∃ y, lazyInit group dev (new bid) = .ok (.ok (), dev, y) ∧ y.blocksBuf = dev.blocks bid ∧
      (y.entries, y.values) = buildFrom (dev.blocks bid) capacityBytes XATTR_HEADER_SIZE (.empty, .empty) := by
  have number : (XattrHeader.read (dev.blocks bid) 0).magic = XattrHeader.EXT2_XATTR_MAGIC := by
    unfold XattrHeader.read
    rw [magic]
    exact ofBytes_toBytes_of_lt (by decide)
  refine ⟨{ new bid with
    blocksBuf := dev.blocks bid
    header := some (XattrHeader.read (dev.blocks bid) 0)
    entries := (buildFrom (dev.blocks bid) capacityBytes XATTR_HEADER_SIZE (.empty, .empty)).1
    values := (buildFrom (dev.blocks bid) capacityBytes XATTR_HEADER_SIZE (.empty, .empty)).2
    dirty := true }, ?_, rfl, rfl⟩
  have other : (new bid).bid ≠ 0 := nonzero
  have unread : (new bid).header = none := rfl
  unfold lazyInit
  rw [if_neg other]
  exact if_neg (not_not.mpr number)

theorem buildFrom_whole (t : Table buf es vs) {table : SortedMap Nat XattrEntry × SortedMap Nat Nat}
    (eq : table = buildFrom buf capacityBytes XATTR_HEADER_SIZE (.empty, .empty)) :
    (table.1.lookup = es ↔ NoGhosts es buf 32) ∧ (NoGhosts es buf 32 → table.2.lookup = vs) := by
  have boundary : Boundary es 32 := ⟨rfl, fun o e found lt => by
    have := (t.entry o e found).low
    omega⟩
  have scan := buildFrom_iff 4096 (.empty, .empty) t boundary (by omega) fun q _ => rfl
  have below : ∀ q < 32, (buildFrom buf 4096 32 (.empty, .empty)).1.lookup q = es q := fun q lt => by
    rw [buildFrom_below lt]
    cases found : es q with
    | none => rfl
    | some e =>
      have := (t.entry q e found).low
      omega
  subst eq
  refine ⟨⟨fun same => scan.mp fun q _ => congrFun same q, fun none => funext fun q => ?_⟩,
    fun none => funext fun v => ?_⟩
  · by_cases lt : q < 32
    · exact below q lt
    · exact scan.mpr none q (by omega)
  obtain ⟨own, others⟩ := buildFrom_values 4096 (.empty, .empty) t boundary (by omega) none
  cases found : vs v with
  | none =>
    refine others v fun o e _ there same => ?_
    have := t.owns o e there
    rw [same, found] at this
    cases this
  | some l =>
    obtain ⟨o, e, there, rfl⟩ := t.owned v l found
    have := (t.owns o e there).symm.trans found
    rw [← this]
    exact own o e (t.entry o e there).low there

/-- The attributes come back exactly if they were written and nothing else looks like one. -/
theorem reload_loaded (h : Loaded x) (saved : Saved dev x) : ∃ s', reload group dev x = .ok (.ok (), s') ∧
      (SameTable x s'.2 ↔ Written dev x ∧ NoGhosts x.entries.lookup (stored dev x) 32) := by
  obtain ⟨start, same⟩ := saved.stored h.bid
  have table : Table (stored dev x) x.entries.lookup x.values.lookup := h.layout.rewrite start same
  have magic := table.magic
  rw [← flush_blocks] at magic
  obtain ⟨y, eq, buf, tables⟩ := lazyInit_load group h.bid magic
  rw [flush_blocks] at buf tables
  obtain ⟨entries, values⟩ := buildFrom_whole table tables
  refine ⟨_, by rw [reload, flush_bid, eq], ?_⟩
  have layout : NoGhosts x.entries.lookup (stored dev x) 32 → y.Layout := fun none => by
    unfold Layout
    rw [buf, entries.mpr none, values none]
    exact table
  constructor
  · rintro ⟨sameEntries, -, sameAttributes⟩
    have none := entries.mp sameEntries
    refine ⟨written_iff.mpr fun o e found => ?_, none⟩
    obtain ⟨name, named⟩ := (h.layout.entry o e found).named
    have value := (lookup_eq_some h.layout).mpr (Layout.attr found named)
    rw [← sameAttributes, lookup_eq_some (layout none)] at value
    obtain ⟨o', e', found', named', eq⟩ := value
    rw [sameEntries] at found'
    rw [buf] at named' eq
    obtain rfl := table.distinct o' e' o e name found' found named' ((same o e found).named.mpr named)
    cases found.symm.trans found'
    exact eq
  · rintro ⟨written, none⟩
    refine ⟨entries.mpr none, values none, lookup_congr h.layout (layout none) fun name bytes => ?_⟩
    unfold Attr
    rw [buf, entries.mpr none]
    exact binds_rewrite (fun o e found => ⟨same o e found, written_iff.mp written o e found⟩) name bytes

/-! ### Runs -/

inductive StoreEvent
  | call (call : Call)
  | flush
  /-- Something else happens to the file system and to other blocks of the device. -/
  | others

/-- A sound call, `flush`, or a step of the rest of the system. -/
inductive StoreStep (group : Nat) : Device × Xattr → StoreEvent → Device × Xattr → Prop
  | call {s s' : Device × Xattr} (call : Call) {result : Except Error Answer} (sound : Sound s.2 call)
      (returns : call.exec group s.1 s.2 = .ok (result, s')) : StoreStep group s (.call call) s'
  | flush {s : Device × Xattr} : StoreStep group s .flush (Xattr.flush s.1 s.2)
  | others {s : Device × Xattr} {dev : Device} (wf : dev.WF)
      (same : s.2.bid ≠ 0 → dev.blocks s.2.bid = s.1.blocks s.2.bid) : StoreStep group s .others (dev, s.2)

structure StoreInv (s : Device × Xattr) : Prop where
  wf : s.1.WF
  inv : Inv s.2
  saved : Saved s.1 s.2

theorem Saved.of_noticed {x1 : Xattr} (saved : Saved dev x1) (frame : Frame x1 x')
    (noticed : Noticed x1 x') : Saved dev x' := by
  intro clean bid
  rcases noticed with dirty | ⟨dirty, entries, start, same⟩
  · rw [dirty] at clean
    cases clean
  obtain ⟨start', same'⟩ := saved (dirty ▸ clean) (frame.bid ▸ bid)
  rw [frame.bid, entries]
  refine ⟨fun i lt => (start' i lt).trans (start i lt).symm, fun o e found i le lt => ?_⟩
  exact (same' o e found i le lt).trans (same o e found i le lt).symm

theorem StoreStep.inv {group : Nat} {s s' : Device × Xattr} {event : StoreEvent} (h : StoreInv s)
    (step : StoreStep group s event s') : StoreInv s' := by
  cases step with
  | call call sound returns =>
    rcases lazyInit_spec h.inv h.wf group with ⟨eq, fresh⟩ | ⟨dev', x1, eq, wf', loaded, same, space, dirty⟩
    · cases (exec_enospc fresh eq call).1.symm.trans returns
      exact h
    obtain ⟨result, x', returns', effect⟩ := exec_loaded eq loaded.layout (sound.congr same space)
    cases returns'.symm.trans returns
    have saved : Saved dev' x1 := by
      rcases dirty with dirty | ⟨rfl, rfl⟩
      · intro clean
        rw [dirty] at clean
        cases clean
      · exact h.saved
    exact ⟨wf', .inr (effect.loaded loaded), saved.of_noticed effect.frame effect.noticed⟩
  | flush =>
    unfold Xattr.flush
    split
    · refine ⟨⟨h.wf.fs, h.wf.zero⟩, ?_, fun _ _ => ?_⟩
      · rcases h.inv with ⟨a, b, c, d⟩ | ⟨a, b, c⟩
        · exact .inl ⟨a, b, c, d⟩
        · exact .inr ⟨a, b, c⟩
      · dsimp only
        rw [Function.update_self]
        exact ⟨fun _ _ => rfl, fun _ _ _ _ _ _ => rfl⟩
    · exact h
  | others wf same =>
    refine ⟨wf, h.inv, fun clean bid => ?_⟩
    rw [same bid]
    exact h.saved clean bid

theorem flush_wf (wf : dev.WF) : (flush dev x).1.WF := by
  unfold flush
  split
  · exact ⟨wf.fs, wf.zero⟩
  · exact wf

/-- Without an attribute block there is nothing to load. -/
theorem reload_fresh (wf : dev.WF) (h : Fresh x) :
    ∃ result s', reload group dev x = .ok (result, s') ∧ SameTable x s'.2 := by
  have new : Fresh (new (flush dev x).2.bid) := ⟨(flush_bid dev x).trans h.bid, rfl, rfl, rfl⟩
  rcases lazyInit_fresh new (flush_wf wf) group with eq | ⟨dev', y, eq, -, loaded, entries, values, -⟩
  · refine ⟨_, _, eq, by rw [h.entries]; rfl, by rw [h.values]; rfl, funext fun name => ?_⟩
    rw [new.lookup, h.lookup]
  · refine ⟨_, _, eq, by rw [h.entries, entries], by rw [h.values, values], funext fun name => ?_⟩
    rw [h.lookup]
    exact lookup_of_empty loaded.layout entries name

/-- In every state that sound calls and flushes lead to, writing the attributes back and loading them gives
the same table exactly if the values are written and no other position looks like an entry. -/
theorem reload_same_iff {group : Nat} {dev0 : Device} {s : Device × Xattr} {events : List StoreEvent} (wf : dev0.WF)
    (run : Labelled.Run (StoreStep group) (dev0, Xattr.new 0) events s) :
    ∃ result s', reload group s.1 s.2 = .ok (result, s') ∧
      (SameTable s.2 s'.2 ↔ s.2.bid = 0 ∨
      (Written s.1 s.2 ∧ NoGhosts s.2.entries.lookup (stored s.1 s.2) 32)) := by
  have init : StoreInv (dev0, new 0) := ⟨wf, .inl ⟨rfl, rfl, rfl, rfl⟩, fun _ bid => absurd rfl bid⟩
  have h : StoreInv s := run.invariant (fun _ _ _ h step => step.inv h) init
  rcases h.inv with fresh | loaded
  · obtain ⟨result, s', eq, same⟩ := reload_fresh group h.wf fresh
    exact ⟨result, s', eq, ⟨fun _ => .inl fresh.bid, fun _ => same⟩⟩
  · obtain ⟨s', eq, same⟩ := reload_loaded group loaded h.saved
    exact ⟨_, s', eq, same.trans ⟨.inr, fun h => h.resolve_left loaded.bid⟩⟩

theorem not_looksLikeEntry (zero : buf pos = 0) : ¬ LooksLikeEntry buf pos := fun looks => looks.nameLen (by
  change (buf pos).toNat + 256 * 0 = 0
  rw [zero]
  rfl)

/-- The buffer with one entry of the user, whose value is at the offset. -/
def userBuf (offset : Nat) (value : List UInt8) : Nat → UInt8 :=
  write (writeEntry (write (fun _ => 0) 0 XattrHeader.new.bytes) 32 (newEntry (userName 97) offset value.length)
    (userName 97)) offset value

theorem userBuf_zero {offset i : Nat} {value : List UInt8} (low : 54 ≤ i) (high : i < offset) :
    userBuf offset value i = 0 := by
  have header : XattrHeader.new.bytes.length = 32 := rfl
  have entry := (newEntry (userName 97) offset value.length).length_bytes
  have name : (userName 97).fullName.length = 6 := rfl
  unfold userBuf writeEntry
  rw [write_of_not_mem (by omega), write_of_not_mem (by omega), write_of_not_mem (by omega),
    write_of_not_mem (by omega)]

/-- The first attribute of an inode is set and loaded again. -/
theorem reload_same_iff_first :
    ∃ s result s', (setUser 97 [1]).exec 0 smallDevice (Xattr.new 0) = .ok (.ok .done, s) ∧
    s.2.lookup (userName 97) = some [1] ∧ reload 0 s.1 s.2 = .ok (result, s') ∧ SameTable s.2 s'.2 := by
  have seen : ((setUser 97 [1]).exec 0 smallDevice (new 0)).toOption.map
      (fun r => (r.1, r.2.2.dirty, r.2.2.lookup (userName 97))) = some (.ok .done, true, some [1]) := by
    decide +kernel
  have table : ((setUser 97 [1]).exec 0 smallDevice (new 0)).toOption.map (fun r => (r.2.2.blocksBuf, r.2.2.entries)) =
      some (userBuf 4092 [1], empty.insert 32 (newEntry (userName 97) 4092 1)) := by
    rfl
  obtain ⟨⟨_, s⟩, returns, seen⟩ := exists_ok_of_map seen
  simp only [Prod.mk.injEq] at seen
  obtain ⟨rfl, dirty, found⟩ := seen
  rw [returns] at table
  obtain ⟨buf, entries⟩ := Prod.mk.inj (some.inj table)
  have sound : Sound (new 0) (setUser 97 [1]) := ⟨cons_ne_nil _ _, fun _ => by decide⟩
  obtain ⟨result, s', loads, same⟩ :=
    reload_same_iff smallDevice_wf (.single (.call (setUser 97 [1]) sound returns))
  refine ⟨s, result, s', returns, found, loads, same.mpr (.inr ⟨.inl dirty, fun p ge lt mod apart => ?_⟩)⟩
  rw [stored, dirty, if_pos rfl, buf]
  have behind : ¬ (32 ≤ p ∧ p < 32 + 24) := apart 32 (newEntry (userName 97) 4092 1) (by rw [entries]; rfl)
  exact not_looksLikeEntry (userBuf_zero (by omega) (by omega))

theorem parsed_trusted : tryFromFullName [116, 114, 117, 115, 116, 101, 100, 46] = some .trusted := by decide

theorem short_trusted : [(116 : UInt8), 114, 117, 115, 116, 101, 100, 46].length ≤ 255 := Nat.le_of_ble_eq_true rfl

def trustedName : XattrName := ⟨.trusted, [116, 114, 117, 115, 116, 101, 100, 46], parsed_trusted, short_trusted⟩

/-- The bytes of an entry with the name `trusted.`. -/
def forged : List UInt8 := XattrEntry.bytes ⟨8, 2, 32, 0, 4, 0⟩ ++ trustedName.fullName

theorem buildFrom_zeros (k fuel : Nat) (zeros : ∀ i < k, buf (pos + 4 * i) = 0) (inside : pos + 4 * k ≤ 4076) :
    buildFrom buf (k + fuel) pos table = buildFrom buf fuel (pos + 4 * k) table := by
  induction k generalizing pos with
  | zero => rw [zero_add]; rfl
  | succ k ih =>
    have here : ¬ LooksLikeEntry buf pos := not_looksLikeEntry (zeros 0 (Nat.succ_pos k))
    rw [add_right_comm, buildFrom_skip (by omega) here, ih (fun i lt => ?_) (by omega)]
    · congr 1
      omega
    · have := zeros (i + 1) (by omega)
      rwa [mul_add, add_comm (4 * i), ← add_assoc] at this

abbrev forgedBuf : Nat → UInt8 := userBuf 4072 forged

/-- The scan finds both the entry and the value. -/
theorem buildFrom_forged : buildFrom forgedBuf capacityBytes XATTR_HEADER_SIZE (.empty, .empty) =
    ((empty.insert 32 (newEntry (userName 97) 4072 24)).insert 4072 ⟨8, 2, 32, 0, 4, 0⟩,
      (empty.insert 4072 24).insert 32 4) := by
  have own : read forgedBuf 32 = newEntry (userName 97) 4072 24 := by decide +kernel
  have forgery : read forgedBuf 4072 = ⟨8, 2, 32, 0, 4, 0⟩ := by decide +kernel
  have first : LooksLikeEntry forgedBuf 32 := (looksLikeEntry_iff 32).mpr (by rw [own]; decide)
  have second : LooksLikeEntry forgedBuf 4072 := (looksLikeEntry_iff 4072).mpr (by rw [forgery]; decide)
  have start : buildFrom forgedBuf (4095 + 1) 32 (.empty, .empty) = buildFrom forgedBuf (1004 + (3090 + 1)) 56
      (empty.insert 32 (newEntry (userName 97) 4072 24), empty.insert 4072 24) := by
    rw [buildFrom_take (by decide) first]
    rfl
  change buildFrom forgedBuf (4095 + 1) 32 (.empty, .empty) = _
  rw [start, buildFrom_zeros 1004 (3090 + 1) (fun i lt => userBuf_zero (by omega) (by omega)) (by omega),
    buildFrom_take (by decide) second, forgery, buildFrom_end (by decide)]

/-- A value of the user that looks like an entry is loaded as an attribute of the trusted namespace. -/
theorem forged_attribute : ∃ s s', (setUser 97 forged).exec 0 smallDevice (Xattr.new 0) = .ok (.ok .done, s) ∧
    reload 0 s.1 s.2 = .ok (.ok (), s') ∧ s.2.lookup trustedName = none ∧ s'.2.lookup trustedName ≠ none := by
  have result : ((setUser 97 forged).exec 0 smallDevice (new 0)).toOption.map (·.1) = some (.ok .done) := by
    decide +kernel
  have before : ((setUser 97 forged).exec 0 smallDevice (new 0)).toOption.map
      (fun r => (r.2.2.bid, r.2.2.dirty, r.2.2.lookup trustedName)) = some (1, true, none) := by
    decide +kernel
  have buf : ((setUser 97 forged).exec 0 smallDevice (new 0)).toOption.map
    (fun r => r.2.2.blocksBuf) = some forgedBuf := by
    rfl
  obtain ⟨⟨_, s⟩, returns, rfl⟩ := exists_ok_of_map result
  rw [returns] at before buf
  have before : (s.2.bid, s.2.dirty, s.2.lookup trustedName) = (1, true, none) := some.inj before
  have buf : s.2.blocksBuf = forgedBuf := some.inj buf
  have bid : s.2.bid = 1 := congrArg Prod.fst before
  have dirty : s.2.dirty = true := congrArg (·.2.1) before
  have block : (flush s.1 s.2).1.blocks s.2.bid = forgedBuf := by
    rw [flush_blocks, stored, dirty, if_pos rfl, buf]
  have magic : slice ((flush s.1 s.2).1.blocks s.2.bid) 0 4 = toBytes 4 XattrHeader.EXT2_XATTR_MAGIC := by
    rw [block]
    decide +kernel
  obtain ⟨y, eq, yBuf, tables⟩ := lazyInit_load 0 (by rw [bid]; exact one_ne_zero) magic
  rw [block] at yBuf tables
  rw [buildFrom_forged] at tables
  have entries : y.entries = (empty.insert 32 (newEntry (userName 97) 4072 24)).insert 4072 ⟨8, 2, 32, 0, 4, 0⟩ :=
    congrArg Prod.fst tables
  refine ⟨s, _, returns, by rw [reload, flush_bid, eq], congrArg (·.2.2) before, ?_⟩
  have found : (findEntryIn forgedBuf trustedName
      ((empty.insert 32 (newEntry (userName 97) 4072 24)).insert 4072 ⟨8, 2, 32, 0, 4, 0⟩).entries) =
      .ok (some (4072, ⟨8, 2, 32, 0, 4, 0⟩)) := by
    decide +kernel
  unfold lookup findEntry
  rw [yBuf, entries]
  exact some_ne_none _

end Xattr

end OmegaOsx.Ext2
