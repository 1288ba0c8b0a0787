import OmegaOsx.MlsDisk.JournalRecovery

/-!
# Crashes inside a compaction

A compaction writes the snapshot area, then the block with the `Version` record. `CutPoint` says
where the machine stops; a torn snapshot area is part of it. A run is a sequence of calls and of
such crashes, each followed by a recovery.

`Spec` is what a caller may rely on: groups covered by a flush are durable, a crash may lose the
others. The journal meets it in all runs whose crashes are safe (`crash_safe`). Two cuts are not:

* the snapshot is complete but its `Version` record is missing, and no later record will ever name
  it: `lost_after_snapshot` is a run that loses a flushed group;
* area 0 is torn: it is repaired from area 1 with the same version, becomes the latest snapshot by
  default, and its MAC is not the one the chain names.
-/

namespace OmegaOsx.MlsDisk

open Symbolic CryptoBlob List Function Except

variable {Key Iv Mac E S P : Type}

/-! ## Torn snapshot areas -/

namespace SnapshotManager

variable [Inhabited Mac] {C : Crypto Key Iv Mac} {ser : Postcard E S Mac}
  {m m' : SnapshotManager Key Mac S}

/-- The manager with one of its areas replaced. -/
def withArea (m : SnapshotManager Key Mac S) (i : Fin 2) (area : BlobArea Mac) :
    SnapshotManager Key Mac S :=
  { m with blobs := Function.update m.blobs i ⟨area, (m.blobs i).key, some area.header⟩ }

omit [Inhabited Mac] in
theorem withArea_mac {i : Fin 2} (other : i ≠ m.latestIndex) (area : BlobArea Mac) :
    (m.withArea i area).mac = m.mac := by
  simp [withArea, mac, update_of_ne other.symm]

/-- The area the next snapshot goes to is not the latest one. -/
theorem older_ne (i : Fin 2) : i + 1 ≠ i := by
  fin_cases i <;> decide

variable {area : BlobArea Mac}

/-- A torn area that still reads as before leaves both snapshots in place. -/
theorem torn_readable (ideal : C.Ideal) (h : SnapshotsInv C ser m) {s : Snapshot S}
    (persisted : m.persist C ser s = .ok m')
    (torn : BlobArea.Torn (m.blobs (m.latestIndex + 1)).area (m'.blobs (m.latestIndex + 1)).area area)
    (same : area.header = (m.blobs (m.latestIndex + 1)).area.header)
    (readable : ((openArea (m.blobs (m.latestIndex + 1)).key area).read C m.bufLen).toOption.isSome) :
    SnapshotsInv C ser (m.withArea (m.latestIndex + 1) area) := by
  obtain ⟨-, persisted⟩ := guard_ok.mp persisted
  obtain ⟨blob, written, persisted⟩ := bind_ok.mp persisted
  cases persisted
  obtain ⟨holds, key, -, -⟩ := write_holds ideal written (h.cached _)
  obtain ⟨old, held, -⟩ := h.holds (m.latestIndex + 1)
  simp only [update_self] at torn
  obtain ⟨res, read⟩ := exists_ok readable
  have kept : CryptoBlob.Holds C (m.blobs (m.latestIndex + 1)).key
      (m.blobs (m.latestIndex + 1)).area.header.version (ser.snapshotToSlice old) area := by
    rcases read_torn ideal held holds torn read with ⟨held, -⟩ | ⟨new, -⟩
    · exact held
    · -- the new contents would have the next version
      have version := congrArg BlobHeader.version (new.header.symm.trans same)
      simp at version
  refine ⟨fun i => ?_, fun i => ?_, fun i => ?_, ?_⟩
  · by_cases at_i : i = m.latestIndex + 1
    · subst at_i
      exact ⟨old, by simpa [withArea, same] using kept, fun latest => absurd latest (older_ne _)⟩
    · simpa [withArea, update_of_ne at_i] using h.holds i
  · by_cases at_i : i = m.latestIndex + 1
    · subst at_i; simp [withArea]
    · simpa [withArea, update_of_ne at_i] using h.cached i
  · by_cases at_i : i = m.latestIndex + 1
    · subst at_i; simpa [withArea, torn.nblocks] using h.size _
    · simpa [withArea, update_of_ne at_i] using h.size i
  · rcases h.versions with ⟨latest, versions⟩ | ⟨latest, versions⟩
    · left; simp [withArea, latest] at same ⊢; rw [same]; exact versions
    · right; simp [withArea, latest] at same ⊢; rw [same]; exact versions

/-- A torn area 1 that cannot be read is repaired from area 0, which stays the latest. -/
theorem torn_unreadable (ideal : C.Ideal) (rt : ser.RoundTrips) (h : SnapshotsInv C ser m) (latest : m.latestIndex = 0)
    (size : area.nblocks = (m.blobs 1).area.nblocks)
    (unreadable : ((openArea (m.blobs 1).key area).read C m.bufLen).toOption.isSome =
      false) (disk : JournalDisk Iv Mac) (info : EditJournalMeta Key)
    (area0 : disk.snapshotAreas 0 = (m.blobs 0).area) (area1 : disk.snapshotAreas 1 = area)
    (keys : ∀ i, info.snapshotAreaKeys i = (m.blobs i).key)
    (infoSize : info.snapshotAreaNblocks * blockSize = m.bufLen) :
    ∃ m', recover C ser disk info = .ok m' ∧ SnapshotsInv C ser m' ∧ m'.snapshot = m.snapshot ∧
      m'.mac = m.mac := by
  obtain ⟨s, read0, same⟩ := h.readSnapshot_eq ideal rt 0
  obtain rfl := same latest.symm
  obtain ⟨s, held, same⟩ := h.holds 0
  obtain rfl := same latest.symm
  have read1 : readSnapshot C ser (openArea (m.blobs 1).key area) m.bufLen = (none, openArea (m.blobs 1).key area) := by
    cases read : (openArea (m.blobs 1).key area).read C m.bufLen with
    | error e => simp [readSnapshot, read]
    | ok res => simp [read, Except.toOption] at unreadable
  have equal : area.nblocks = (m.blobs 0).area.nblocks := by
    have sizes := (h.size 1).trans (h.size 0).symm
    rw [size]
    exact Nat.eq_of_mul_eq_mul_right (by unfold blockSize; omega) sizes
  obtain ⟨blob1, repaired, holds1, key1, cached1, size1⟩ :=
    recoverFrom_holds ideal (m.blobs 1).key held (h.cached 0) equal
  have version1 : blob1.area.header.version = (m.blobs 0).area.header.version := by
    rw [holds1.header]
  refine ⟨⟨![m.blobs 0, blob1], 0, m.bufLen, m.snapshot⟩, ?_, ⟨fun i => ?_, fun i => ?_,
    fun i => ?_, ?_⟩, rfl, ?_⟩
  · simp only [recover, area0, area1, keys, infoSize, read0, read1, repair]
    rw [repaired]
    simp only [bind, Except.bind, versionId, h.cached 0, cached1, Option.map_some, version1, if_true]
  · fin_cases i
    · exact ⟨m.snapshot, held, fun _ => rfl⟩
    · refine ⟨m.snapshot, ?_, fun _ => rfl⟩
      simpa [key1, version1] using holds1
  · fin_cases i
    · exact h.cached 0
    · exact cached1
  · fin_cases i
    · exact h.size 0
    · simpa [size1, size] using h.size 1
  · exact .inl ⟨rfl, version1.symm⟩
  · simp [mac, latest]

end SnapshotManager

/-! ## Crashes -/

/-- Where a compaction is cut short: before its snapshot is written, while it is written, between
the snapshot and the `Version` record, or after both. -/
inductive CutPoint (Mac : Type)
  | beforeSnapshot
  | inSnapshot (torn : BlobArea Mac)
  | afterSnapshot
  | afterVersion

/-- A call on the journal, or a crash inside a compaction and the recovery after it, with the policy
the recovery is given. -/
inductive Event (E Mac P : Type)
  | call (op : EditJournal.Op E)
  | crash (point : CutPoint Mac) (policy : P)

namespace EditJournal

variable [Inhabited Mac] [DecidableEq Mac] [Edit E S] [CompactPolicy P E]
variable (C : Crypto Key Iv Mac) (ser : Postcard E S Mac) (j : EditJournal Key Iv Mac E S P)

/-- The disk with the area for the next snapshot torn. -/
def tornDisk (torn : BlobArea Mac) : JournalDisk Iv Mac :=
  { j.disk with
    snapshotAreas := Function.update j.disk.snapshotAreas (j.snapshots.latestIndex + 1) torn }

/-- The disk that a compaction of `j` leaves when it is cut. -/
def cutDisk : CutPoint Mac → Res (JournalDisk Iv Mac)
  | .beforeSnapshot => .ok j.disk
  | .inSnapshot torn => .ok (j.tornDisk torn)
  | .afterSnapshot => do
    let snapshots ← j.snapshots.persist C ser ⟨j.state, j.chain.stop⟩
    .ok { j with snapshots := snapshots }.disk
  | .afterVersion => do
    let (j, _) ← compact C ser j
    .ok j.disk

/-- A torn area comes from the write that `persist` makes. -/
def CanCut : CutPoint Mac → Prop
  | .inSnapshot torn => ∃ snapshots, j.snapshots.persist C ser ⟨j.state, j.chain.stop⟩ = .ok snapshots ∧
    BlobArea.Torn (j.snapshots.blobs (j.snapshots.latestIndex + 1)).area
      (snapshots.blobs (j.snapshots.latestIndex + 1)).area torn
  | _ => True

/-- The write buffer of `j` is appended, the policy asks for a compaction, and the compaction is cut
at `point`, leaving `disk`. -/
structure Crashes (j : EditJournal Key Iv Mac E S P) (point : CutPoint Mac)
    (j1 : EditJournal Key Iv Mac E S P) (disk : JournalDisk Iv Mac) : Prop where
  nonempty : j.writeBuf.data ≠ []
  appended : appendBuf C j = .ok j1
  compacts : CompactPolicy.shouldCompact E j1.policy = true
  canCut : CanCut C ser j1 point
  left : cutDisk C ser j1 point = .ok disk

/-- The recovery after a crash of `j1`. -/
def recoverCrashed (j1 : EditJournal Key Iv Mac E S P) (disk : JournalDisk Iv Mac) (policy : P) :
    Res (EditJournal Key Iv Mac E S P) :=
  recover C ser (j1.chain.log.storage.length + 1) disk j1.info policy (j1.rng + 1)

/-- One event of a run. -/
def Step : Event E Mac P → EditJournal Key Iv Mac E S P → Prop
  | .call op, j' => j.exec C ser op = .ok j'
  | .crash point policy, j' => ∃ j1 disk, Crashes C ser j point j1 disk ∧
    recoverCrashed C ser j1 disk policy = .ok j'

/-- The cuts after which the chain still names the snapshot that recovery picks. -/
def SafeCut (m : SnapshotManager Key Mac S) : CutPoint Mac → Prop
  | .beforeSnapshot => True
  | .inSnapshot torn =>
    let read := (CryptoBlob.openArea (m.blobs (m.latestIndex + 1)).key torn).read C m.bufLen
    (torn.header = (m.blobs (m.latestIndex + 1)).area.header ∧ read.toOption.isSome) ∨
      (m.latestIndex = 0 ∧ read.toOption.isSome = false)
  | .afterSnapshot => False
  | .afterVersion => True

/-- There is a free block in the ring, and a crash is a safe one. -/
def Safe : Event E Mac P → Prop
  | .call _ => j.chain.len < j.chain.log.storage.length
  | .crash point _ => j.chain.len < j.chain.log.storage.length ∧ SafeCut C j.snapshots point

end EditJournal

/-! ## What a caller may rely on -/

/-- The groups that survive a crash, those that may not, and the edits not yet committed. -/
structure Spec (E : Type) where
  durable : List (List E)
  volatile : List (List E)
  pending : List E

namespace Spec

/-- A flush makes all committed groups durable; a crash keeps the durable ones and the first few of
the others. -/
inductive Step : Spec E → Event E Mac P → Spec E → Prop
  | flush {sp} : Step sp (.call .flush) ⟨sp.durable ++ sp.volatile, [], sp.pending⟩
  | call {sp op} (other : op ≠ .flush) :
      Step sp (.call op) ⟨sp.durable, sp.volatile ++ (EditJournal.specStep sp.pending op).1,
        (EditJournal.specStep sp.pending op).2⟩
  | crash {sp kept lost point policy} (split : sp.volatile = kept ++ lost) :
      Step sp (.crash point policy) ⟨sp.durable ++ kept, [], []⟩

def start : Spec E := ⟨[], [], []⟩

end Spec

/-! ## Safe crashes -/

variable {events : List (Event E Mac P)}

namespace EditJournal

variable [Inhabited Mac] {C : Crypto Key Iv Mac} {ser : Postcard E S Mac} {init : List (ChainBlock Iv Mac)}
  {key : Key} {hist : List (Iv × Bytes)} {onDisk inBuf : List (List E)}
  {j j' j1 : EditJournal Key Iv Mac E S P}

omit [Inhabited Mac] in
theorem DrawnBefore.mono {rng rng' : Nat} {ivs : List Iv} (h : DrawnBefore C rng ivs)
    (le : rng ≤ rng') : DrawnBefore C rng' ivs := by
  obtain ⟨draws, ivs_eq, nodup, before⟩ := h
  exact ⟨draws, ivs_eq, nodup, fun d mem => lt_of_lt_of_le (before d mem) le⟩

/-- Other snapshot areas that hold the same latest snapshot serve as well. -/
theorem Stored.withSnapshots (h : Stored C ser init key hist onDisk inBuf j)
    {m : SnapshotManager Key Mac S} (inv : SnapshotManager.SnapshotsInv C ser m)
    (snapshot : m.snapshot = j.snapshots.snapshot) (mac : m.mac = j.snapshots.mac) :
    Stored C ser init key hist onDisk inBuf { j with snapshots := m } where
  chain := h.chain
  key_eq := h.key_eq
  drawn := h.drawn
  snapshots := inv
  start_eq := by simp only [snapshot, h.start_eq]
  blocks := by simpa only [mac] using h.blocks
  buf := h.buf
  capacity := h.capacity

variable [DecidableEq Mac] [Edit E S] {disk : JournalDisk Iv Mac}

/-- A recovery whose snapshots come back as those of `j` finds the state of `j`. -/
theorem Stored.recovered (ideal : C.Ideal) (rt : ser.RoundTrips)
    (h : Stored C ser init key hist onDisk [] j) (consistent : Consistent onDisk [] j)
    (foreign : ∀ b ∈ init, b.Foreign C key) (within : j.chain.len ≤ init.length) {fuel : Nat}
    (enough : init.length < fuel) {info : EditJournalMeta Key}
    (managed : SnapshotManager.recover C ser disk info = .ok j.snapshots)
    (area : disk.journalArea = j.chain.log.storage) (areaKey : info.journalAreaKey = key)
    (policy : P) {rng : Nat} (later : j.rng ≤ rng) :
    ∃ j', recover C ser fuel disk info policy rng = .ok j' ∧ Sound C ser init key j' ∧
      j'.state = j.state ∧ j'.pending = [] := by
  rw [Consistent, append_nil] at consistent
  refine ⟨_, h.recover_of_snapshots ideal rt foreign within enough managed area areaKey policy rng,
    ⟨hist, onDisk, [], ?_, by rw [Consistent, append_nil]⟩, consistent.symm, rfl⟩
  exact ⟨h.chain, h.key_eq, h.drawn.mono later, h.snapshots, h.start_eq, h.blocks, rfl, rfl⟩

variable [CompactPolicy P E]

/-- After a safe crash the recovery returns, with the state the journal had. -/
theorem crash_recovers (ideal : C.Ideal) (rt : ser.RoundTrips) (sound : Sound C ser init key j)
    (foreign : ∀ b ∈ init, b.Foreign C key) {point : CutPoint Mac}
    (policy : P) (safe : Safe C j (.crash point policy)) (crash : Crashes C ser j point j1 disk) :
    ∃ j', recoverCrashed C ser j1 disk policy = .ok j' ∧ Sound C ser init key j' ∧
      j'.state = j.state ∧ j'.pending = [] := by
  obtain ⟨hist, onDisk, inBuf, stored, consistent⟩ := sound
  have ring := stored.chain.ring.length_eq
  obtain ⟨room, safe⟩ := safe
  have len := stored.chain.stop_eq
  obtain ⟨stored1, state1, snapshots1, -, start1⟩ := appendBuf_stored stored crash.appended
  rw [← snapshots1] at safe
  have ring1 := stored1.chain.ring.length_eq
  have consistent1 : Consistent (onDisk ++ inBuf) [] j1 := by
    rw [Consistent, append_nil, snapshots1, state1]; exact consistent
  have within1 : j1.chain.len ≤ init.length := by
    have stop1 := stored1.chain.stop_eq
    rw [length_append, length_singleton] at stop1
    unfold CryptoChain.len at room ⊢
    omega
  have enough : init.length < j1.chain.log.storage.length + 1 := by omega
  have size := stored1.snapshots.size 0
  rw [← state1]
  cases point with
  | beforeSnapshot =>
    obtain rfl : j1.disk = disk := ok.inj crash.left
    exact stored1.recovered ideal rt consistent1 foreign within1 enough
      (stored1.snapshots.recover_eq ideal rt (fun _ => rfl) (fun _ => rfl) size) rfl
      stored1.key_eq policy (Nat.le_succ _)
  | inSnapshot torn =>
    obtain rfl := ok.inj crash.left
    obtain ⟨snapshots, persisted, isTorn⟩ := crash.canCut
    rcases safe with ⟨same, readable⟩ | ⟨latest, unreadable⟩
    · have inv := SnapshotManager.torn_readable ideal stored1.snapshots persisted isTorn same readable
      have stored2 := stored1.withSnapshots inv rfl (SnapshotManager.withArea_mac (SnapshotManager.older_ne _) torn)
      refine stored2.recovered ideal rt consistent1 foreign within1 enough
        (inv.recover_eq ideal rt (fun i => ?_) (fun i => ?_) size) rfl stored1.key_eq policy
        (Nat.le_succ _)
      · by_cases at_i : i = j1.snapshots.latestIndex + 1
        · subst at_i; simp [SnapshotManager.withArea, tornDisk]
        · simp [SnapshotManager.withArea, update_of_ne at_i, tornDisk, EditJournal.disk]
      · by_cases at_i : i = j1.snapshots.latestIndex + 1
        · subst at_i; simp [SnapshotManager.withArea, info]
        · simp [SnapshotManager.withArea, update_of_ne at_i, info]
    · have older : j1.snapshots.latestIndex + 1 = 1 := by rw [latest]; rfl
      rw [older] at unreadable isTorn
      obtain ⟨m, managed, inv, snapshot, mac⟩ := SnapshotManager.torn_unreadable ideal rt
        stored1.snapshots latest isTorn.nblocks unreadable (j1.tornDisk torn) j1.info
        (by simp [tornDisk, older, EditJournal.disk]) (by simp [tornDisk, older]) (fun _ => rfl) size
      have stored2 := stored1.withSnapshots inv snapshot mac
      refine stored2.recovered ideal rt ?_ foreign within1 enough managed rfl stored1.key_eq policy (Nat.le_succ _)
      simpa only [Consistent, snapshot] using consistent1
  | afterSnapshot => exact safe.elim
  | afterVersion =>
    obtain ⟨⟨j2, n⟩, compacted, left⟩ := bind_ok.mp crash.left
    obtain rfl := ok.inj left
    obtain ⟨hist', stored2, state2, latest2, -, start2, len2⟩ := compact_stored ideal stored1 compacted
    have nonempty1 : j1.chain.start < j1.chain.stop := by
      rw [stored1.chain.stop_eq]; exact stored1.start_lt
    obtain ⟨snapshots, mac, chain, persisted, -, -, rfl, -⟩ := compact_cases nonempty1 compacted
    obtain ⟨inv, -, keys, sizes⟩ := SnapshotManager.persist_inv ideal stored1.snapshots persisted
    have one : (trimmed chain).len ≤ init.length := by
      have stop2 : (trimmed chain).stop = hist'.length := stored2.chain.stop_eq
      rw [CryptoChain.len, stop2, start2]
      omega
    exact stored2.recovered ideal rt (state2.trans latest2.symm) foreign one enough
      (inv.recover_eq ideal rt (fun _ => rfl) (fun i => (keys i).symm)
        (by rw [← inv.size 0, sizes 0]; rfl)) rfl stored1.key_eq policy le_rfl

variable (C ser) in
/-- The journal is in the state that the specification describes. -/
structure Refines (init : List (ChainBlock Iv Mac)) (key : Key) (initState : S) (sp : Spec E)
    (j : EditJournal Key Iv Mac E S P) : Prop where
  sound : Sound C ser init key j
  state_eq : j.state = applyGroups (sp.durable ++ sp.volatile) initState
  pending_eq : j.pending = sp.pending

variable {initState : S} {sp : Spec E}

section

variable (ideal : C.Ideal) (rt : ser.RoundTrips)
include ideal rt

omit [DecidableEq Mac] in
theorem call_refines (h : Refines C ser init key initState sp j) {op : Op E} (ok : j.exec C ser op = .ok j') :
    ∃ sp', Spec.Step sp (.call op : Event E Mac P) sp' ∧ Refines C ser init key initState sp' j' := by
  obtain ⟨sound, state, pending⟩ := exec_sound ideal rt h.sound ok
  rw [h.pending_eq] at state pending
  by_cases flush : op = .flush
  · subst flush
    exact ⟨_, .flush, sound, by simpa [specStep, applyGroups, h.state_eq] using state, pending⟩
  · refine ⟨_, .call flush, sound, ?_, pending⟩
    rw [state, h.state_eq, ← applyGroups_append, append_assoc]

theorem crash_refines (foreign : ∀ b ∈ init, b.Foreign C key) (h : Refines C ser init key initState sp j)
    {point : CutPoint Mac} {policy : P} (safe : Safe C j (.crash point policy))
    (step : Step C ser j (.crash point policy) j') :
    ∃ sp', Spec.Step sp (.crash point policy : Event E Mac P) sp' ∧ Refines C ser init key initState sp' j' := by
  obtain ⟨j1, disk, crash, recovered⟩ := step
  obtain ⟨j2, recovered', sound, state, pending⟩ := crash_recovers ideal rt h.sound foreign policy safe crash
  obtain rfl := ok.inj (recovered.symm.trans recovered')
  refine ⟨_, .crash (append_nil sp.volatile).symm, sound, ?_, pending⟩
  rw [state, h.state_eq, append_nil]

theorem run_refines (foreign : ∀ b ∈ init, b.Foreign C key)
    (run : Labelled.Run (fun j e j' => Step C ser j e j' ∧ Safe C j e) j events j')
    (h : Refines C ser init key initState sp j) :
    ∃ sp', Labelled.Run Spec.Step sp events sp' ∧ Refines C ser init key initState sp' j' := by
  induction run generalizing sp with
  | nil => exact ⟨sp, .nil sp, h⟩
  | @cons _ t _ event _ first _ ih =>
    obtain ⟨sp1, step, refines⟩ : ∃ sp1, Spec.Step sp event sp1 ∧ Refines C ser init key initState sp1 t := by
      cases event with
      | call op => exact call_refines ideal rt h first.1
      | crash point policy => exact crash_refines ideal rt foreign h first.2 first.1
    obtain ⟨sp2, steps, refines⟩ := ih refines
    exact ⟨sp2, .cons step steps, refines⟩

end

/-- In a run whose crashes are all safe and whose appends always find a free block, every recovery
returns, and the state recovered after a flush is made of the durable groups. -/
theorem crash_safe (ideal : C.Ideal) (rt : ser.RoundTrips) {disk : RawDisk Iv Mac}
    {keys : Fin 2 → Key} {stateMaxNbytes rng : Nat} {policy : P} {j0 : EditJournal Key Iv Mac E S P}
    (foreign : ∀ b ∈ (disk.carve (snapshotBlocks stateMaxNbytes)).journalArea, b.Foreign C key)
    (formatted : format C ser disk keys key rng initState stateMaxNbytes policy = .ok j0)
    {events : List (Event E Mac P)}
    (run : Labelled.Run (fun j e j' => Step C ser j e j' ∧ Safe C j e) j0 events j) :
    ∃ sp, Labelled.Run Spec.Step Spec.start events sp ∧
      (∀ point policy j1 d, Crashes C ser j point j1 d → Safe C j (.crash point policy) →
        ∃ r, recoverCrashed C ser j1 d policy = .ok r) ∧
      (∀ j' (policy : P) rng fuel, j.flush C ser = .ok j' →
        Safe C j (.call .flush : Event E Mac P) → j'.chain.log.storage.length < fuel →
        ∃ r, recover C ser fuel j'.disk j'.info policy rng = .ok r ∧
          r.state = applyGroups (sp.durable ++ sp.volatile) initState) := by
  obtain ⟨sound0, state0, pending0⟩ := format_sound ideal formatted
  have start : Refines C ser (disk.carve (snapshotBlocks stateMaxNbytes)).journalArea key initState
      Spec.start j0 := ⟨sound0, state0, pending0⟩
  obtain ⟨sp, steps, refines⟩ := run_refines ideal rt foreign run start
  refine ⟨sp, steps, fun point policy j1 d crash safe => ?_, fun j' policy rng fuel ok room enough => ?_⟩
  · obtain ⟨r, recovered, -⟩ := crash_recovers ideal rt refines.sound foreign policy safe crash
    exact ⟨r, recovered⟩
  obtain ⟨hist', onDisk', inBuf', stored, -⟩ := refines.sound
  obtain ⟨hist, onDisk, stored', consistent, state, -, len⟩ := flush_stored ideal rt refines.sound ok
  have ring := stored'.chain.ring.length_eq
  have within : j'.chain.len ≤ (disk.carve (snapshotBlocks stateMaxNbytes)).journalArea.length := by
    have : j.chain.len < j.chain.log.storage.length := room
    rw [stored.chain.ring.length_eq] at this
    omega
  refine ⟨_, stored'.recover_eq ideal rt foreign within (ring ▸ enough) policy rng, ?_⟩
  rw [Consistent, append_nil] at consistent
  exact consistent.symm.trans (state.trans refines.state_eq)

/-! ## Two runs -/

section Runs

variable (C ser)

/-- One event; a torn area is not tried. -/
def execEvent (j : EditJournal Key Iv Mac E S P) : Event E Mac P → Res (EditJournal Key Iv Mac E S P)
  | .call op => j.exec C ser op
  | .crash (.inSnapshot _) _ => fail .unsupported "a torn area"
  | .crash point policy =>
    if j.writeBuf.data = [] then fail .unsupported "nothing to append"
    else do
      let j1 ← appendBuf C j
      if CompactPolicy.shouldCompact E j1.policy = false then fail .unsupported "no compaction"
      else do
        let disk ← cutDisk C ser j1 point
        recoverCrashed C ser j1 disk policy

/-- Runs events as long as `accept` lets them. -/
def runEvents (accept : EditJournal Key Iv Mac E S P → Event E Mac P → Bool) :
    EditJournal Key Iv Mac E S P → List (Event E Mac P) → Res (EditJournal Key Iv Mac E S P)
  | j, [] => .ok j
  | j, event :: events => do
    let j' ← execEvent C ser j event
    if accept j event = false then fail .unsupported "not accepted"
    else runEvents accept j' events

/-- There is a free block, and a crash comes before the snapshot or after the `Version` record. -/
def acceptSafe (j : EditJournal Key Iv Mac E S P) (event : Event E Mac P) : Bool :=
  decide (j.chain.len < j.chain.log.storage.length) &&
    match event with
    | .call _ | .crash .beforeSnapshot _ | .crash .afterVersion _ => true
    | _ => false

variable {C ser} {event : Event E Mac P}

theorem step_of_execEvent (ok : execEvent C ser j event = .ok j') : Step C ser j event j' := by
  have crash : ∀ {point policy}, (∀ j1 : EditJournal Key Iv Mac E S P, CanCut C ser j1 point) →
      (if j.writeBuf.data = [] then fail .unsupported "nothing to append" else do
          let j1 ← appendBuf C j
          if CompactPolicy.shouldCompact E j1.policy = false then fail .unsupported "no compaction"
          else do
            let disk ← cutDisk C ser j1 point
            recoverCrashed C ser j1 disk policy) = .ok j' →
      Step C ser j (.crash point policy) j' := by
    intro point policy canCut ok
    obtain ⟨nonempty, ok⟩ := guard_ok.mp ok
    obtain ⟨j1, appended, ok⟩ := bind_ok.mp ok
    obtain ⟨compacts, ok⟩ := guard_ok.mp ok
    obtain ⟨disk, left, ok⟩ := bind_ok.mp ok
    exact ⟨j1, disk, ⟨nonempty, appended, by simpa using compacts, canCut j1, left⟩, ok⟩
  cases event with
  | call op => exact ok
  | crash point policy =>
    cases point with
    | beforeSnapshot => exact crash (fun _ => trivial) ok
    | inSnapshot torn => cases ok
    | afterSnapshot => exact crash (fun _ => trivial) ok
    | afterVersion => exact crash (fun _ => trivial) ok

theorem run_of_runEvents {accept : EditJournal Key Iv Mac E S P → Event E Mac P → Bool}
    (ok : runEvents C ser accept j events = .ok j') :
    Labelled.Run (fun j e j' => Step C ser j e j' ∧ accept j e = true) j events j' := by
  induction events generalizing j with
  | nil =>
    cases ok
    exact .nil _
  | cons event events ih =>
    obtain ⟨j1, executed, ok⟩ := bind_ok.mp ok
    obtain ⟨accepted, ok⟩ := guard_ok.mp ok
    exact .cons ⟨step_of_execEvent executed, by simpa using accepted⟩ (ih ok)

omit [Inhabited Mac] [DecidableEq Mac] [Edit E S] [CompactPolicy P E] in
theorem safe_of_acceptSafe (accepted : acceptSafe j event = true) : Safe C j event := by
  simp only [acceptSafe, Bool.and_eq_true, decide_eq_true_eq] at accepted
  obtain ⟨room, kind⟩ := accepted
  cases event with
  | call op => exact room
  | crash point policy =>
    cases point with
    | beforeSnapshot => exact ⟨room, trivial⟩
    | inSnapshot torn => cases kind
    | afterSnapshot => cases kind
    | afterVersion => exact ⟨room, trivial⟩

end Runs

/-- A journal with three journal blocks. -/
def threeBlocks : Res (EditJournal UInt8 Nat Bytes UInt8 Bytes DefaultCompactPolicy) :=
  format Symbolic.cipher Symbolic.ser (Symbolic.blankDisk 5) ![1, 2] 3 0 [] 100 ⟨0, 3⟩

/-- The second flush compacts and is cut at `point`; a third group is committed after the
recovery. -/
def threeGroups (point : CutPoint Bytes) : List (Event UInt8 Bytes DefaultCompactPolicy) :=
  [.call (.add 7), .call .commit, .call .flush, .call (.add 8), .call .commit,
    .crash point ⟨0, 3⟩] ++ [.call (.add 9), .call .commit]

theorem crash_safe_threeBlocks : ∃ j0 j j' r, threeBlocks = .ok j0 ∧
      Labelled.Run (fun j e j' => Step Symbolic.cipher Symbolic.ser j e j' ∧
        Safe Symbolic.cipher j e) j0 (threeGroups .afterVersion) j ∧
      j.flush Symbolic.cipher Symbolic.ser = .ok j' ∧
      recover Symbolic.cipher Symbolic.ser (j'.chain.log.storage.length + 1) j'.disk j'.info
        (⟨0, 3⟩ : DefaultCompactPolicy) 9 = .ok r ∧
      ∃ sp, Labelled.Run Spec.Step Spec.start (threeGroups .afterVersion) sp ∧
        r.state = applyGroups (sp.durable ++ sp.volatile) [] := by
  obtain ⟨j', ok⟩ : ∃ j', (do
      let j0 ← threeBlocks
      let j ← runEvents cipher ser acceptSafe j0 (threeGroups .afterVersion)
      runEvents cipher ser acceptSafe j [.call .flush]) = .ok j' :=
    exists_ok (by decide +kernel)
  obtain ⟨j0, formatted, ok⟩ := bind_ok.mp ok
  obtain ⟨j, ran, ok⟩ := bind_ok.mp ok
  have run : Labelled.Run (fun j e j' => Step cipher ser j e j' ∧ Safe cipher j e) j0 (threeGroups .afterVersion) j :=
    (run_of_runEvents ran).mono fun _ _ _ h => ⟨h.1, safe_of_acceptSafe h.2⟩
  obtain - | ⟨⟨flushed, accepted⟩, ⟨⟩⟩ := run_of_runEvents ok
  obtain ⟨sp, steps, -, recovers⟩ := crash_safe cipher_ideal ser_roundTrips (blank_foreign 3) formatted run
  obtain ⟨r, recovered, state⟩ :=
    recovers j' ⟨0, 3⟩ 9 _ flushed (safe_of_acceptSafe accepted) (Nat.lt_succ_self _)
  exact ⟨j0, j, j', r, formatted, run, flushed, recovered, sp, steps, state⟩

theorem applyGroups_bytes (groups : List Bytes) (state : Bytes) :
    applyGroups groups state = state ++ groups.flatten := by
  have one : ∀ (group state : Bytes), applyGroup group state = state ++ group := by
    intro group
    induction group with
    | nil => simp [applyGroup]
    | cons e group ih =>
      intro state
      have := ih (state ++ [e])
      simpa [applyGroup, Edit.applyTo] using this
  induction groups generalizing state with
  | nil => simp [applyGroups]
  | cons g groups ih =>
    have := ih (state ++ g)
    simpa [applyGroups, one] using this

/-- Group 9 is durable once it was committed and flushed, whatever the crash kept. -/
theorem threeGroups_durable {point : CutPoint Bytes} {sp : Spec UInt8}
    (run : Labelled.Run Spec.Step Spec.start (threeGroups point ++ [.call .flush]) sp) :
    9 ∈ sp.durable.flatten := by
  rw [threeGroups, append_assoc] at run
  obtain ⟨t, -, last⟩ := run.split
  obtain - | ⟨add, rest⟩ := last
  obtain - | ⟨commit, rest⟩ := rest
  obtain - | ⟨flushes, ⟨⟩⟩ := rest
  cases add
  cases commit
  cases flushes with
  | flush => simp [specStep]
  | call other => exact absurd rfl other

/-- A crash between the snapshot and its `Version` record: group 9 is committed and flushed after
the recovery, and the next recovery does not find it. -/
theorem lost_after_snapshot : ∃ j0 j j' r, threeBlocks = .ok j0 ∧
      Labelled.Run (Step Symbolic.cipher Symbolic.ser) j0 (threeGroups .afterSnapshot) j ∧
      j.flush Symbolic.cipher Symbolic.ser = .ok j' ∧
      recover Symbolic.cipher Symbolic.ser 9 j'.disk j'.info (⟨0, 3⟩ : DefaultCompactPolicy) 9 = .ok r ∧
      r.state = [7, 8] ∧
      ∀ sp, Labelled.Run Spec.Step Spec.start (threeGroups .afterSnapshot ++ [.call .flush]) sp →
        r.state ≠ applyGroups sp.durable [] := by
  obtain ⟨r, ok, state⟩ : ∃ r, (do
      let j0 ← threeBlocks
      let j ← runEvents cipher ser (fun _ _ => true) j0 (threeGroups .afterSnapshot)
      let j' ← j.flush cipher ser
      recover cipher ser 9 j'.disk j'.info (⟨0, 3⟩ : DefaultCompactPolicy) 9) = .ok r ∧ r.state = [7, 8] :=
    exists_ok_of_map (by decide +kernel)
  obtain ⟨j0, formatted, ok⟩ := bind_ok.mp ok
  obtain ⟨j, ran, ok⟩ := bind_ok.mp ok
  obtain ⟨j', flushed, recovered⟩ := bind_ok.mp ok
  refine ⟨j0, j, j', r, formatted, (run_of_runEvents ran).mono fun _ _ _ h => h.1, flushed,
    recovered, state, fun sp run same => ?_⟩
  have kept := threeGroups_durable run
  rw [state, applyGroups_bytes, nil_append] at same
  rw [← same] at kept
  exact absurd kept (by decide)

end EditJournal

end OmegaOsx.MlsDisk
