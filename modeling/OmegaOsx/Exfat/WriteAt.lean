import OmegaOsx.Exfat.Directory

/-!
# Concurrent writes to a file

`write_at` runs in two locked sections. The first makes room and works out the new size; the second
copies the data and stores that size. Another write may store its own size in between.
-/

namespace OmegaOsx.Exfat

open List

open MlsDisk (bind_ok)

def PAGE_SIZE : Nat := 4096

/-- Addition of two `usize`. -/
def add64 (a b : Nat) : Res Nat :=
  if a + b < 2 ^ 64 then .ok (a + b) else panicWith "attempt to add with overflow"

/-- `AlignExt::align_up`, for a power of two. -/
def alignUp (n align : Nat) : Res Nat :=
  if n + (align - 1) < 2 ^ 64 then .ok ((n + (align - 1)) / align * align)
  else panicWith "called `Option::unwrap()` on a `None` value"

/-- What `write_at` reads and changes of the inode. -/
structure File where
  inodeType : InodeType
  size : Nat
  sizeAllocated : Nat
  startChain : ExfatChain
  fs : ExfatFs
  /-- The size of the page cache. -/
  pagesSize : Nat

namespace File

/-- The clusters of `resize`: as many as the new size takes. -/
def fitClusters (f : File) (newNumClusters newSize : Nat) : Res File :=
  let numClusters := f.startChain.numClusters
  match compare newNumClusters numClusters with
  | .gt => do
    let (fs, startChain, _) ← f.startChain.extendClusters f.fs (newNumClusters - numClusters)
    pure { f with fs, startChain }
  | .lt => do
    let (fs, startChain) ← f.startChain.removeClustersFromTail f.fs (numClusters - newNumClusters)
    pure { f with fs, startChain, size := if newSize < f.size then newSize else f.size }
  | .eq => .ok f

/-- `resize`; the number of clusters is cut to a `u32`. -/
def resize (f : File) (newSize : Nat) : Res File := do
  let clusterSize := f.fs.superBlock.clusterSize
  let aligned ← alignUp newSize clusterSize
  let f ← f.fitClusters (aligned / clusterSize % 2 ^ 32) newSize
  pure { f with sizeAllocated := newSize }

/-- `resize`, where what is allocated does not do. -/
def allocate (f : File) (newSize : Nat) : Res File :=
  if f.sizeAllocated < newSize then f.resize newSize else .ok f

/-- Makes room for a write that ends at `newSize`. -/
def grow (f : File) (newSize : Nat) : Res File :=
  if f.size < newSize then do
    let f ← f.allocate newSize
    let pagesSize ← alignUp newSize PAGE_SIZE
    pure { f with pagesSize }
  else .ok f

end File

/-- A call: where it writes, and how much. -/
structure Request where
  offset : Nat
  len : Nat

def Request.stop (r : Request) : Nat := r.offset + r.len

/-- What the second section meets: whether the pages can be filled from the user's buffer, and whether
the clock can be read. -/
structure Env where
  copied : Res Unit
  clock : Res Unit

/-- The first section of `write_at`, with the size it returns. -/
def reserve (f : File) (r : Request) : Res (File × Nat) :=
  if f.inodeType = .dir then fail .eisdir ""
  else do
    let newSize ← add64 r.offset r.len
    let grown ← f.grow newSize
    pure (grown, max newSize f.size)

/-- The second section of `write_at`. -/
def store (f : File) (r : Request) (env : Env) (newSize : Nat) : Res File :=
  if f.pagesSize < r.stop then fail .einval "operated range exceeds the vmo size"
  else do
    env.copied
    env.clock
    pure { f with size := newSize }

/-- Where a call stands. -/
inductive Phase
  | waiting
  /-- Between the sections, with the new size. -/
  | reserved (newSize : Nat)
  | returned
  | failed (fault : Fault)

/-- A file and the calls on it. -/
structure Writers (ι : Type) where
  file : File
  phases : ι → Phase

namespace Writers

variable {ι : Type} [DecidableEq ι]

def start (file : File) : Writers ι := ⟨file, fun _ => .waiting⟩

def setPhase (w : Writers ι) (i : ι) (file : File) (phase : Phase) : Writers ι :=
  ⟨file, Function.update w.phases i phase⟩

variable (requests : ι → Request)

/-- The next section of a call. -/
def exec (w : Writers ι) (event : ι × Env) : Writers ι :=
  match w.phases event.1 with
  | .waiting =>
    match reserve w.file (requests event.1) with
    | .ok (file, newSize) => w.setPhase event.1 file (.reserved newSize)
    | .error fault => w.setPhase event.1 w.file (.failed fault)
  | .reserved newSize =>
    match store w.file (requests event.1) event.2 newSize with
    | .ok file => w.setPhase event.1 file .returned
    | .error fault => w.setPhase event.1 w.file (.failed fault)
  | _ => w

def run (file : File) (events : List (ι × Env)) : Writers ι :=
  events.foldl (exec requests) (start file)

/-- The file holds its initial size and every write that has returned. -/
def Covers (initial : Nat) (w : Writers ι) : Prop :=
  initial ≤ w.file.size ∧ ∀ i, w.phases i = .returned → (requests i).stop ≤ w.file.size

/-- The next section of a call does not store a size below the one it finds. -/
def KeepsSize (w : Writers ι) (event : ι × Env) : Prop :=
  ∀ newSize file, w.phases event.1 = .reserved newSize →
    store w.file (requests event.1) event.2 newSize = .ok file → w.file.size ≤ newSize

end Writers

/-! ### The two sections -/

theorem add64_ok {a b c : Nat} (h : add64 a b = .ok c) : c = a + b := by
  unfold add64 at h
  split at h
  · cases h
    rfl
  · cases h

variable {newSize : Nat} {f f' : File} {r : Request}

theorem File.fitClusters_size {newNumClusters : Nat} (lt : f.size < newSize)
    (h : f.fitClusters newNumClusters newSize = .ok f') : f'.size = f.size := by
  unfold File.fitClusters at h
  dsimp only at h
  split at h
  · obtain ⟨_, -, h⟩ := bind_ok.mp h
    cases h
    rfl
  · obtain ⟨_, -, h⟩ := bind_ok.mp h
    cases h
    exact if_neg lt.not_gt
  · cases h
    rfl

theorem File.grow_size (h : f.grow newSize = .ok f') : f'.size = f.size := by
  unfold File.grow at h
  split at h
  · next lt =>
    obtain ⟨allocated, alloc, h⟩ := bind_ok.mp h
    obtain ⟨pagesSize, -, h⟩ := bind_ok.mp h
    cases h
    unfold File.allocate at alloc
    split at alloc
    · obtain ⟨aligned, -, alloc⟩ := bind_ok.mp alloc
      obtain ⟨fitted, fit, alloc⟩ := bind_ok.mp alloc
      cases alloc
      show fitted.size = f.size
      exact File.fitClusters_size lt fit
    · cases alloc
      rfl
  · cases h
    rfl

theorem reserve_ok (h : reserve f r = .ok (f', newSize)) : f'.size = f.size ∧ newSize = max r.stop f.size := by
  unfold reserve at h
  split at h
  · cases h
  obtain ⟨stop, sum, h⟩ := bind_ok.mp h
  obtain ⟨grown, grow, h⟩ := bind_ok.mp h
  cases h
  cases add64_ok sum
  exact ⟨File.grow_size grow, rfl⟩

theorem store_ok {env : Env} (h : store f r env newSize = .ok f') : f'.size = newSize := by
  unfold store at h
  split at h
  · cases h
  obtain ⟨_, -, h⟩ := bind_ok.mp h
  obtain ⟨_, -, h⟩ := bind_ok.mp h
  cases h
  rfl

namespace Writers

variable {ι : Type} [DecidableEq ι] {requests : ι → Request} {initial : Nat} {w : Writers ι} {event : ι × Env}

theorem phases_setPhase (w : Writers ι) (i : ι) (file : File) (phase : Phase) (j : ι) :
    (w.setPhase i file phase).phases j = if j = i then phase else w.phases j :=
  Function.update_apply w.phases i phase j

/-- A phase that a step does not set has been there before. -/
theorem phases_of_setPhase {i j : ι} {file : File} {phase phase' : Phase}
    (h : (w.setPhase i file phase).phases j = phase') (ne : phase ≠ phase') : j ≠ i ∧ w.phases j = phase' := by
  rw [phases_setPhase] at h
  split at h
  · exact absurd h ne
  · next other => exact ⟨other, h⟩

/-- What the next section of a call can do. -/
theorem exec_cases (requests : ι → Request) (w : Writers ι) (event : ι × Env) :
    (∃ file newSize, w.phases event.1 = .waiting ∧ reserve w.file (requests event.1) = .ok (file, newSize) ∧
      exec requests w event = w.setPhase event.1 file (.reserved newSize)) ∨
    (∃ newSize file, w.phases event.1 = .reserved newSize ∧
      store w.file (requests event.1) event.2 newSize = .ok file ∧
      exec requests w event = w.setPhase event.1 file .returned) ∨
    (∃ fault, w.phases event.1 ≠ .returned ∧
      exec requests w event = w.setPhase event.1 w.file (.failed fault)) ∨
    exec requests w event = w := by
  unfold exec
  cases at_ : w.phases event.1 with
  | waiting =>
    cases first : reserve w.file (requests event.1) with
    | ok result => exact .inl ⟨result.1, result.2, rfl, rfl, rfl⟩
    | error fault => exact .inr (.inr (.inl ⟨fault, Phase.noConfusion, rfl⟩))
  | reserved newSize =>
    cases second : store w.file (requests event.1) event.2 newSize with
    | ok file => exact .inr (.inl ⟨newSize, file, rfl, second, by simp [second]⟩)
    | error fault => exact .inr (.inr (.inl ⟨fault, Phase.noConfusion, by simp [second]⟩))
  | returned => exact .inr (.inr (.inr rfl))
  | failed fault => exact .inr (.inr (.inr rfl))

/-- Besides, a call that has reserved will store at least its own end. -/
structure Sound (requests : ι → Request) (initial : Nat) (w : Writers ι) : Prop where
  covers : w.Covers requests initial
  reserved : ∀ {i newSize}, w.phases i = .reserved newSize → (requests i).stop ≤ newSize

theorem Sound.exec (sound : w.Sound requests initial) (keeps : w.KeepsSize requests event) :
    (w.exec requests event).Sound requests initial := by
  rcases exec_cases requests w event with
    ⟨file, newSize, -, first, eq⟩ | ⟨newSize, file, at_, second, eq⟩ | ⟨fault, -, eq⟩ | eq
  · obtain ⟨size, rfl⟩ := reserve_ok first
    rw [eq]
    refine ⟨⟨size ▸ sound.covers.1, fun i done => ?_⟩, fun {i n} at_ => ?_⟩
    · exact size ▸ sound.covers.2 i (phases_of_setPhase done Phase.noConfusion).2
    rw [phases_setPhase] at at_
    split at at_
    · next here =>
      cases at_
      exact here ▸ le_max_left _ _
    · exact sound.reserved at_
  · have le : w.file.size ≤ file.size := (keeps newSize file at_ second).trans_eq (store_ok second).symm
    rw [eq]
    refine ⟨⟨sound.covers.1.trans le, fun i done => ?_⟩, fun later => ?_⟩
    · rw [phases_setPhase] at done
      split at done
      · next here => exact here ▸ (sound.reserved at_).trans_eq (store_ok second).symm
      · exact (sound.covers.2 i done).trans le
    · exact sound.reserved (phases_of_setPhase later Phase.noConfusion).2
  · rw [eq]
    refine ⟨⟨sound.covers.1, fun i done => ?_⟩, fun later => ?_⟩
    · exact sound.covers.2 i (phases_of_setPhase done Phase.noConfusion).2
    · exact sound.reserved (phases_of_setPhase later Phase.noConfusion).2
  · rw [eq]
    exact sound

/-- A size that the initial file or a write that has returned accounts for. -/
def Reached (requests : ι → Request) (initial : Nat) (w : Writers ι) (size : Nat) : Prop :=
  size ≤ initial ∨ ∃ i, w.phases i = .returned ∧ size ≤ (requests i).stop

/-- The size is accounted for, and so is what a call will store, unless it is the call's own end. -/
structure Tight (requests : ι → Request) (initial : Nat) (w : Writers ι) : Prop where
  size : w.Reached requests initial w.file.size
  reserved : ∀ {i newSize}, w.phases i = .reserved newSize →
    newSize ≤ (requests i).stop ∨ w.Reached requests initial newSize

theorem Reached.setPhase {size : Nat} (h : w.Reached requests initial size) {i : ι} (file : File) (phase : Phase)
    (open_ : w.phases i ≠ .returned) : (w.setPhase i file phase).Reached requests initial size := by
  rcases h with le | ⟨j, done, le⟩
  · exact .inl le
  refine .inr ⟨j, ?_, le⟩
  have other : j ≠ i := fun eq => open_ (eq ▸ done)
  rw [phases_setPhase, if_neg other]
  exact done

theorem Tight.exec (tight : w.Tight requests initial) : (w.exec requests event).Tight requests initial := by
  rcases exec_cases requests w event with
    ⟨file, newSize, at_, first, eq⟩ | ⟨newSize, file, at_, second, eq⟩ | ⟨fault, open_, eq⟩ | eq
  · obtain ⟨size, rfl⟩ := reserve_ok first
    have keep := fun size (h : w.Reached requests initial size) =>
      h.setPhase (i := event.1) file (.reserved (max (requests event.1).stop w.file.size)) (at_ ▸ Phase.noConfusion)
    rw [eq]
    refine ⟨size ▸ keep _ tight.size, fun {i n} later => ?_⟩
    rw [phases_setPhase] at later
    split at later
    · next here =>
      cases later
      subst here
      rcases le_total w.file.size (requests event.1).stop with own | found
      · exact .inl (max_le (le_refl _) own)
      · refine .inr (keep _ ?_)
        rw [max_eq_right found]
        exact tight.size
    · exact (tight.reserved later).imp_right (keep _)
  · have keep := fun size (h : w.Reached requests initial size) =>
      h.setPhase (i := event.1) file .returned (at_ ▸ Phase.noConfusion)
    rw [eq]
    refine ⟨?_, fun later => ?_⟩
    · rw [show (w.setPhase event.1 file .returned).file.size = newSize from store_ok second]
      rcases tight.reserved at_ with own | found
      · exact .inr ⟨event.1, by rw [phases_setPhase, if_pos rfl], own⟩
      · exact keep _ found
    · exact (tight.reserved (phases_of_setPhase later Phase.noConfusion).2).imp_right (keep _)
  · have keep := fun size (h : w.Reached requests initial size) => h.setPhase w.file (.failed fault) open_
    rw [eq]
    refine ⟨keep _ tight.size, fun later => ?_⟩
    exact (tight.reserved (phases_of_setPhase later Phase.noConfusion).2).imp_right (keep _)
  · rw [eq]
    exact tight

/-- A store below the size loses what the size was there for. -/
theorem Tight.keepsSize (tight : w.Tight requests initial) (covers : (w.exec requests event).Covers requests initial) :
    w.KeepsSize requests event := by
  intro newSize file at_ second
  have eq : w.exec requests event = w.setPhase event.1 file .returned := by
    unfold Writers.exec
    rw [at_]
    simp only [second]
  rw [eq] at covers
  have size : (w.setPhase event.1 file .returned).file.size = newSize := store_ok second
  unfold Covers at covers
  rw [size] at covers
  have open_ : w.phases event.1 ≠ .returned := at_ ▸ Phase.noConfusion
  rcases tight.size.setPhase file .returned open_ with le | ⟨j, done, le⟩
  · exact le.trans covers.1
  · exact le.trans (covers.2 j done)

/-! ### Whole runs -/

theorem run_concat (requests : ι → Request) (file : File) (events : List (ι × Env)) (event : ι × Env) :
    run requests file (events ++ [event]) = (run requests file events).exec requests event :=
  foldl_append

theorem sound_run (requests : ι → Request) (file : File) (events : List (ι × Env))
    (keeps : ∀ past event, past ++ [event] <+: events → (run requests file past).KeepsSize requests event) :
    (run requests file events).Sound requests file.size := by
  induction events using reverseRecOn with
  | nil => exact ⟨⟨le_refl _, fun _ => Phase.noConfusion⟩, Phase.noConfusion⟩
  | append_singleton events event ih =>
    rw [run_concat]
    exact (ih fun past event before => keeps past event (before.trans (prefix_append _ _))).exec
      (keeps events event (prefix_refl _))

theorem tight_run (requests : ι → Request) (file : File) (events : List (ι × Env)) :
    (run requests file events).Tight requests file.size := by
  induction events using reverseRecOn with
  | nil => exact ⟨.inl (le_refl _), Phase.noConfusion⟩
  | append_singleton events event ih =>
    rw [run_concat]
    exact ih.exec

/-- However the sections of the calls interleave, the file holds its initial size and every write that
has returned, in all states passed, exactly if no call stores a size below the one it finds. -/
theorem covers_iff (requests : ι → Request) (file : File) (events : List (ι × Env)) :
    (∀ past, past <+: events → (run requests file past).Covers requests file.size) ↔
      ∀ past event, past ++ [event] <+: events → (run requests file past).KeepsSize requests event := by
  constructor
  · intro covers past event before
    have after := covers _ before
    rw [run_concat] at after
    exact (tight_run requests file past).keepsSize after
  · intro keeps past before
    exact (sound_run requests file past fun past' event before' => keeps past' event (before'.trans before)).covers

end Writers

namespace SmallVolume

def emptyFile : File where
  inodeType := .file
  size := 0
  sizeAllocated := 0
  startChain := ⟨0, 0, FAT_CHAIN_NOT_IN_USE⟩
  fs := fs
  pagesSize := 0

/-- A short and a long write to the start of a file. -/
def twoWrites (long : Bool) : Request := ⟨0, if long then 100 else 50⟩

def ready (i : Bool) : Bool × Env := (i, ⟨.ok (), .ok ()⟩)

end SmallVolume

open SmallVolume in
/-- The short write reserves first and stores last. -/
theorem size_lost : ∃ events, (∀ i, (Writers.run twoWrites emptyFile events).phases i = .returned) ∧
    (Writers.run twoWrites emptyFile events).file.size < (twoWrites true).stop := by
  refine ⟨[ready false, ready true, ready true, ready false], fun i => ?_, ?_⟩
  · cases i <;> rfl
  · decide +kernel

end OmegaOsx.Exfat
