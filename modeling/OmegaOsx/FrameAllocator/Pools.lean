import OmegaOsx.FrameAllocator.Buddy

/-!
# The buddy pools

Every CPU has a pool of small chunks and all of them share a global pool. A call works on its CPU's
pool and takes the lock of the global pool only when it needs it; once it has the lock it keeps it to
its end. `Pools` is what one call sees: the two pools and whether it holds the lock.

The size of the global pool is also kept in an atomic, `GLOBAL_POOL_SIZE`. A call that does not hold
the lock reads it there while other CPUs may be in the middle of a call, so what it reads is a
parameter, `seen`.
-/

namespace OmegaOsx.FrameAllocator

open BuddySet List

open MlsDisk (bind_ok ok_bind)

abbrev maxBuddyOrder : Nat := 32
abbrev maxLocalBuddyOrder : Nat := 18

/-- `core::alloc::Layout`. -/
structure Layout where
  size : Nat
  align : Nat
  /-- The alignment of a layout is a power of two. -/
  power : ∃ k, align = 2 ^ k

/-- A number of frames, aligned to a chunk of the given order. -/
def Layout.frames (count order : Nat) : Layout :=
  ⟨count * pageSize, sizeOfOrder order, order + 12, sizeOfOrder_eq order⟩

/-! ### Balancing -/

def cacheExpectedPortion : Nat := 2

def cacheExpectedSize (numCpus globalSize : Nat) : Nat := globalSize / numCpus / cacheExpectedPortion

def cacheMinimalPortion : Nat := 8

def cacheMinimalSize (numCpus globalSize : Nat) : Nat :=
  cacheExpectedSize numCpus globalSize / cacheMinimalPortion

def cacheMaximalMultiplier : Nat := 2

def cacheMaximalSize (numCpus globalSize : Nat) : Nat :=
  cacheExpectedSize numCpus globalSize * cacheMaximalMultiplier

section BalanceTo

variable {m1 m2 : Nat}

/-- Moves one chunk from `a` to `b`, in parts when `b` has no list for its order. -/
def moveChunk (order : Nat) (a : BuddySet m1) (b : BuddySet m2) :
    Res (Option (BuddySet m1 × BuddySet m2)) := do
  match ← a.allocChunk order with
  | none => pure none
  | some (addr, a) =>
    if m2 ≤ order then do
      let insertedOrder := m2 - 1
      let parts ← splitToOrder addr order insertedOrder
      let b ← parts.foldlM (·.insertChunk · insertedOrder) b
      pure (some (a, b))
    else do
      let b ← b.insertChunk addr order
      pure (some (a, b))

def balanceTo : Nat → BuddySet m1 → BuddySet m2 → Res (BuddySet m1 × BuddySet m2)
  | 0, a, b => do
    match ← moveChunk 0 a b with
    | some moved => pure moved
    | none => pure (a, b)
  | order + 1, a, b => do
    match ← moveChunk (order + 1) a b with
    | some moved => pure moved
    | none =>
      -- the chunk may be too large: twice a chunk of half the size
      if 1 < order + 1 then do
        let (a, b) ← balanceTo order a b
        balanceTo order a b
      else pure (a, b)

end BalanceTo

structure Pools where
  localPool : BuddySet maxLocalBuddyOrder
  globalPool : BuddySet maxBuddyOrder
  locked : Bool

namespace Pools

def getGlobalSize (seen : Nat) (p : Pools) : Nat := if p.locked then p.globalPool.totalSize else seen

def balance (numCpus seen : Nat) (p : Pools) : Res Pools :=
  let globalSize := p.getGlobalSize seen
  let minimalLocalSize := cacheMinimalSize numCpus globalSize
  let expectedLocalSize := cacheExpectedSize numCpus globalSize
  let maximalLocalSize := cacheMaximalSize numCpus globalSize
  let localSize := p.localPool.totalSize
  if maximalLocalSize ≤ localSize then
    if localSize = 0 then .ok p
    else do
      let expectedRemoval ← checkedSub localSize expectedLocalSize
      let lesserOrder ← lesserOrderOf expectedRemoval
      let (localPool, globalPool) ← balanceTo lesserOrder p.localPool p.globalPool
      pure ⟨localPool, globalPool, true⟩
  else if localSize < minimalLocalSize then
    if globalSize = 0 then .ok p
    else do
      let expectedAllocation ← checkedSub expectedLocalSize localSize
      let lesserOrder ← lesserOrderOf expectedAllocation
      let (globalPool, localPool) ← balanceTo lesserOrder p.globalPool p.localPool
      pure ⟨localPool, globalPool, true⟩
  else .ok p

variable (p : Pools)

/-- The order that `balance` computes, and whether its chunks leave the local pool. -/
def balanceOrder (numCpus globalSize localSize : Nat) : Res (Option (Bool × Nat)) :=
  if cacheMaximalSize numCpus globalSize ≤ localSize then
    if localSize = 0 then .ok none
    else do
      let expectedRemoval ← checkedSub localSize (cacheExpectedSize numCpus globalSize)
      let lesserOrder ← lesserOrderOf expectedRemoval
      pure (some (true, lesserOrder))
  else if localSize < cacheMinimalSize numCpus globalSize then
    if globalSize = 0 then .ok none
    else do
      let expectedAllocation ← checkedSub (cacheExpectedSize numCpus globalSize) localSize
      let lesserOrder ← lesserOrderOf expectedAllocation
      pure (some (false, lesserOrder))
  else .ok none

def moveChunks : Option (Bool × Nat) → Res Pools
  | none => .ok p
  | some (true, order) => do
    let (localPool, globalPool) ← balanceTo order p.localPool p.globalPool
    pure ⟨localPool, globalPool, true⟩
  | some (false, order) => do
    let (globalPool, localPool) ← balanceTo order p.globalPool p.localPool
    pure ⟨localPool, globalPool, true⟩

theorem balance_eq (numCpus seen : Nat) : p.balance numCpus seen =
    (do p.moveChunks (← balanceOrder numCpus (p.getGlobalSize seen) p.localPool.totalSize)) := by
  unfold balance balanceOrder
  dsimp only
  split
  · split
    · rfl
    · simp only [bind_assoc]
      rfl
  · split
    · split
      · rfl
      · simp only [bind_assoc]
        rfl
    · rfl

/-! ### Allocation and deallocation -/

def insertGlobal (chunk : Paddr × Nat) : Res Pools := do
  let globalPool ← p.globalPool.insertChunk chunk.1 chunk.2
  pure { p with globalPool, locked := true }

def insertFree (chunk : Paddr × Nat) : Res Pools :=
  if maxLocalBuddyOrder ≤ chunk.2 then p.insertGlobal chunk
  else do
    let localPool ← p.localPool.insertChunk chunk.1 chunk.2
    pure { p with localPool }

def deallocSegment (segment : Paddr × Nat) : Res Pools := do
  let chunks ← splitToChunks segment.1 segment.2
  chunks.foldlM insertFree p

def doDealloc (segments : List (Paddr × Nat)) : Res Pools :=
  segments.foldlM deallocSegment p

def takeGlobal (order : Nat) : Res (Option Paddr × Pools) := do
  match ← p.globalPool.allocChunk order with
  | some (addr, globalPool) => pure (some addr, { p with globalPool, locked := true })
  | none => pure (none, { p with locked := true })

/-- A chunk of the local pool, or else of the global one. -/
def takeChunk (order : Nat) : Res (Option Paddr × Pools) :=
  if order < maxLocalBuddyOrder then do
    match ← p.localPool.allocChunk order with
    | some (addr, localPool) => pure (some addr, { p with localPool })
    | none => p.takeGlobal order
  else p.takeGlobal order

/-- The part of the chunk behind the size asked for goes back. -/
def returnRest (chunkAddr : Option Paddr) (allocatedSize size : Nat) : Res Pools :=
  if size < allocatedSize then
    match chunkAddr with
    | some addr => p.doDealloc [(addr + size, allocatedSize - size)]
    | none => .ok p
  else .ok p

def alloc (numCpus seen : Nat) (p : Pools) (layout : Layout) : Res (Option Paddr × Pools) := do
  let order := max (greaterOrderOf layout.size) (greaterOrderOf layout.align)
  let (chunkAddr, p) ← p.takeChunk order
  let p ← p.returnRest chunkAddr (sizeOfOrder order) layout.size
  let p ← p.balance numCpus seen
  pure (chunkAddr, p)

def dealloc (numCpus seen : Nat) (p : Pools) (segments : List (Paddr × Nat)) : Res Pools := do
  let p ← p.doDealloc segments
  p.balance numCpus seen

/-- Everything added goes to the global pool. -/
def addFreeMemory (addr : Paddr) (size : Nat) : Res Pools := do
  let chunks ← splitToChunks addr size
  chunks.foldlM insertGlobal p

end Pools

/-! ### What the pools hold -/

/-- The pages handed out by a call that asked for `size` bytes. -/
def grant (size : Nat) : Option Paddr → Multiset Nat
  | some addr => pages addr size
  | none => 0

/-- A loop that puts one piece after another somewhere. -/
theorem foldlM_held {σ ι : Type} {Sound : σ → Prop} {held : σ → Multiset Nat}
    {put : σ → ι → Res σ} {piece : ι → Multiset Nat} {xs : List ι}
    (one : ∀ s t, ∀ x ∈ xs, put s x = .ok t → Sound s → Sound t ∧ held t = held s + piece x)
    {s t : σ} (h : xs.foldlM put s = .ok t) (sound : Sound s) :
    Sound t ∧ held t = held s + (xs.map piece).sum := by
  induction xs generalizing s with
  | nil =>
    cases h
    exact ⟨sound, (add_zero _).symm⟩
  | cons x xs ih =>
    obtain ⟨mid, first, rest⟩ := bind_ok.mp h
    obtain ⟨soundMid, eqMid⟩ := one s mid x mem_cons_self first sound
    obtain ⟨soundEnd, eqEnd⟩ := ih (fun s t x mem => one s t x (mem_cons_of_mem _ mem)) rest soundMid
    exact ⟨soundEnd, by rw [eqEnd, eqMid, map_cons, sum_cons, add_assoc]⟩

variable {order : Nat}

section BalanceTo

variable {m1 m2 : Nat} {a a' : BuddySet m1} {b b' : BuddySet m2}

theorem moveChunk_run (h : moveChunk order a b = .ok (some (a', b')))
    (soundA : a.Sound) (soundB : b.Sound) : a'.Sound ∧ b'.Sound ∧ a'.held + b'.held = a.held + b.held := by
  obtain ⟨found, out, h⟩ := bind_ok.mp h
  cases found with
  | none => cases h
  | some found =>
    obtain ⟨addr, left⟩ := found
    obtain ⟨soundA', eqA, -⟩ := allocChunk_run out soundA
    have assemble (soundB' : b'.Sound) (eqB : b'.held = b.held + chunkPages (addr, order)) :
        left.Sound ∧ b'.Sound ∧ left.held + b'.held = a.held + b.held :=
      ⟨soundA', soundB', by rw [eqA, eqB, add_right_comm, add_assoc]⟩
    dsimp only at h
    split at h
    · obtain ⟨parts, split, h⟩ := bind_ok.mp h
      obtain ⟨filled, insert, h⟩ := bind_ok.mp h
      cases h
      have one (s t : BuddySet m2) (part : Paddr) (_ : part ∈ parts)
          (h : s.insertChunk part (m2 - 1) = .ok t) (sound : s.Sound) :
          t.Sound ∧ t.held = s.held + chunkPages (part, m2 - 1) :=
        insertChunk_run h sound
      obtain ⟨soundB', eqB⟩ := foldlM_held one insert soundB
      exact assemble soundB' (splitToOrder_run split ▸ eqB)
    · obtain ⟨filled, insert, h⟩ := bind_ok.mp h
      cases h
      obtain ⟨soundB', eqB⟩ := insertChunk_run insert soundB
      exact assemble soundB' eqB

theorem balanceTo_run (h : balanceTo order a b = .ok (a', b'))
    (soundA : a.Sound) (soundB : b.Sound) : a'.Sound ∧ b'.Sound ∧ a'.held + b'.held = a.held + b.held := by
  induction order generalizing a a' b b' with
  | zero =>
    obtain ⟨moved, out, h⟩ := bind_ok.mp h
    cases moved with
    | none =>
      cases h
      exact ⟨soundA, soundB, rfl⟩
    | some moved =>
      cases h
      exact moveChunk_run out soundA soundB
  | succ order ih =>
    obtain ⟨moved, out, h⟩ := bind_ok.mp h
    cases moved with
    | none =>
      dsimp only at h
      split at h
      · obtain ⟨⟨a1, b1⟩, first, second⟩ := bind_ok.mp h
        obtain ⟨soundA1, soundB1, eq1⟩ := ih first soundA soundB
        obtain ⟨soundA2, soundB2, eq2⟩ := ih second soundA1 soundB1
        exact ⟨soundA2, soundB2, eq2.trans eq1⟩
      · cases h
        exact ⟨soundA, soundB, rfl⟩
    | some moved =>
      cases h
      exact moveChunk_run out soundA soundB

end BalanceTo

variable {p q : Pools} {segments : List (Paddr × Nat)} {res : Option Paddr}

namespace Pools

/-- Both pools are sound, and a call that found the global pool as `shared` and has not locked it has
not changed it. -/
structure Sound (shared : BuddySet maxBuddyOrder) (p : Pools) : Prop where
  localPool : p.localPool.Sound
  globalPool : p.globalPool.Sound
  unlocked : p.locked = false → p.globalPool = shared

variable {shared : BuddySet maxBuddyOrder}

def held (p : Pools) : Multiset Nat := p.localPool.held + p.globalPool.held

variable {numCpus seen size : Nat} {chunk : Paddr × Nat}

theorem balance_run (h : p.balance numCpus seen = .ok q) (sound : p.Sound shared) :
    q.Sound shared ∧ q.held = p.held := by
  rw [balance_eq] at h
  obtain ⟨found, -, h⟩ := bind_ok.mp h
  rcases found with _ | ⟨_ | _, order⟩
  · cases h
    exact ⟨sound, rfl⟩
  · obtain ⟨⟨g, l⟩, moved, h⟩ := bind_ok.mp h
    cases h
    obtain ⟨soundG, soundL, eq⟩ := balanceTo_run moved sound.globalPool sound.localPool
    exact ⟨⟨soundL, soundG, nofun⟩, by rw [held, add_comm, eq, add_comm, held]⟩
  · obtain ⟨⟨l, g⟩, moved, h⟩ := bind_ok.mp h
    cases h
    obtain ⟨soundL, soundG, eq⟩ := balanceTo_run moved sound.localPool sound.globalPool
    exact ⟨⟨soundL, soundG, nofun⟩, eq⟩

theorem insertGlobal_run (h : p.insertGlobal chunk = .ok q) (sound : p.Sound shared) :
    q.Sound shared ∧ q.held = p.held + chunkPages chunk := by
  obtain ⟨pool, insert, h⟩ := bind_ok.mp h
  cases h
  obtain ⟨sound', eq⟩ := insertChunk_run insert sound.globalPool
  exact ⟨⟨sound.localPool, sound', nofun⟩, by simp only [held, eq, add_assoc]⟩

theorem insertFree_run (h : p.insertFree chunk = .ok q) (sound : p.Sound shared) :
    q.Sound shared ∧ q.held = p.held + chunkPages chunk := by
  unfold insertFree at h
  split at h
  · exact insertGlobal_run h sound
  obtain ⟨pool, insert, h⟩ := bind_ok.mp h
  cases h
  obtain ⟨sound', eq⟩ := insertChunk_run insert sound.localPool
  exact ⟨⟨sound', sound.globalPool, sound.unlocked⟩, by simp only [held, eq, add_right_comm]⟩

theorem doDealloc_run (h : p.doDealloc segments = .ok q) (sound : p.Sound shared) :
    q.Sound shared ∧ q.held = p.held + (segments.map fun segment => pages segment.1 segment.2).sum := by
  refine foldlM_held (fun s t segment _ h sound => ?_) h sound
  obtain ⟨chunks, split, h⟩ := bind_ok.mp h
  rw [← (splitToChunks_run split).2]
  exact foldlM_held (fun s t chunk _ => insertFree_run) h sound

theorem takeGlobal_run (h : p.takeGlobal order = .ok (res, q)) (sound : p.Sound shared) :
    q.Sound shared ∧ p.held = q.held + grant (sizeOfOrder order) res ∧
      ∀ addr, res = some addr → sizeOfOrder order ∣ addr := by
  obtain ⟨found, out, h⟩ := bind_ok.mp h
  cases found with
  | none =>
    cases h
    exact ⟨⟨sound.localPool, sound.globalPool, nofun⟩, (add_zero _).symm, nofun⟩
  | some found =>
    cases h
    obtain ⟨sound', eq, aligned⟩ := allocChunk_run out sound.globalPool
    refine ⟨⟨sound.localPool, sound', nofun⟩, ?_, fun _ same => Option.some.inj same ▸ aligned⟩
    simp only [held, eq, add_assoc]
    rfl

theorem takeChunk_run (h : p.takeChunk order = .ok (res, q)) (sound : p.Sound shared) :
    q.Sound shared ∧ p.held = q.held + grant (sizeOfOrder order) res ∧
      ∀ addr, res = some addr → sizeOfOrder order ∣ addr := by
  unfold takeChunk at h
  split at h
  · obtain ⟨found, out, h⟩ := bind_ok.mp h
    cases found with
    | none => exact takeGlobal_run h sound
    | some found =>
      cases h
      obtain ⟨sound', eq, aligned⟩ := allocChunk_run out sound.localPool
      refine ⟨⟨sound', sound.globalPool, sound.unlocked⟩, ?_, fun _ same => Option.some.inj same ▸ aligned⟩
      simp only [held, eq, add_right_comm]
      rfl
  · exact takeGlobal_run h sound

theorem returnRest_run {allocated : Nat} (h : p.returnRest res allocated size = .ok q) (sound : p.Sound shared)
    (whole : pageSize ∣ size) (covers : size ≤ allocated) :
    q.Sound shared ∧ q.held + grant size res = p.held + grant allocated res := by
  unfold returnRest at h
  split at h
  · cases res with
    | none =>
      cases h
      exact ⟨sound, rfl⟩
    | some addr =>
      obtain ⟨sound', eq⟩ := doDealloc_run h sound
      refine ⟨sound', ?_⟩
      rw [eq, map_singleton, sum_singleton, add_assoc, add_comm (pages _ _)]
      simp only [grant]
      rw [← pages_add addr _ whole, Nat.add_sub_cancel' covers]
  · cases h
    have exact_size : size = allocated := le_antisymm covers (not_lt.mp ‹_›)
    exact ⟨sound, by rw [exact_size]⟩

/-- What the pools hand out has left them, at an address aligned to the order of the request. -/
theorem alloc_run {layout : Layout} (h : p.alloc numCpus seen layout = .ok (res, q))
    (sound : p.Sound shared) (whole : pageSize ∣ layout.size) :
    q.Sound shared ∧ p.held = q.held + grant layout.size res ∧ ∀ addr, res = some addr →
        sizeOfOrder (max (greaterOrderOf layout.size) (greaterOrderOf layout.align)) ∣ addr := by
  obtain ⟨⟨res', p1⟩, take, h⟩ := bind_ok.mp h
  obtain ⟨p2, rest, h⟩ := bind_ok.mp h
  obtain ⟨p3, balanced, h⟩ := bind_ok.mp h
  cases h
  obtain ⟨sound1, eq1, aligned⟩ := takeChunk_run take sound
  have covers : layout.size ≤ sizeOfOrder (max (greaterOrderOf layout.size) (greaterOrderOf layout.align)) :=
    (le_sizeOfOrder_greaterOrderOf whole).trans (Nat.le_of_dvd (sizeOfOrder_pos _) (sizeOfOrder_dvd (le_max_left _ _)))
  obtain ⟨sound2, eq2⟩ := returnRest_run rest sound1 whole covers
  obtain ⟨sound3, eq3⟩ := balance_run balanced sound2
  exact ⟨sound3, by rw [eq1, eq3, eq2], aligned⟩

theorem dealloc_run (h : p.dealloc numCpus seen segments = .ok q) (sound : p.Sound shared) :
    q.Sound shared ∧ q.held = p.held + (segments.map fun segment => pages segment.1 segment.2).sum := by
  obtain ⟨p1, freed, h⟩ := bind_ok.mp h
  obtain ⟨sound1, eq1⟩ := doDealloc_run freed sound
  obtain ⟨sound2, eq2⟩ := balance_run h sound1
  exact ⟨sound2, eq2.trans eq1⟩

theorem addFreeMemory_run {addr : Paddr} (h : p.addFreeMemory addr size = .ok q) (sound : p.Sound shared) :
    pageSize ∣ size ∧ q.Sound shared ∧ q.held = p.held + pages addr size := by
  obtain ⟨chunks, split, h⟩ := bind_ok.mp h
  obtain ⟨whole, sum⟩ := splitToChunks_run split
  exact ⟨whole, sum ▸ foldlM_held (fun s t chunk _ => insertGlobal_run) h sound⟩

/-! ### The order of balancing -/

/-- A local pool of a single page that is to keep a part of it, or an empty one that is to get a part of
a page. -/
def SubPage (expected localSize : Nat) : Prop :=
  localSize = pageSize ∧ 0 < expected ∧ expected * 2 ≤ pageSize ∨
    localSize = 0 ∧ 8 ≤ expected ∧ expected < pageSize

theorem balanceOrder_ok_iff {globalSize localSize : Nat} (whole : pageSize ∣ localSize) :
    (∃ found, balanceOrder numCpus globalSize localSize = .ok found) ↔
      ¬ SubPage (cacheExpectedSize numCpus globalSize) localSize := by
  have order {size : Nat} {f : Nat → Option (Bool × Nat)} :
      (∃ found, (do pure (f (← lesserOrderOf size)) : Res _) = .ok found) ↔ pageSize ≤ size := by
    rw [← Nat.div_pos_iff.trans (and_iff_right pageSize_pos)]
    unfold lesserOrderOf
    dsimp only
    split
    · next none => exact ⟨fun ⟨_, eq⟩ => (nomatch eq), fun pos => absurd none (ne_of_gt pos)⟩
    · next some => exact ⟨fun _ => pos_of_ne_zero some, fun _ => ⟨_, rfl⟩⟩
  have sub {a b : Nat} {f : Nat → Res (Option (Bool × Nat))} (le : b ≤ a) :
    (do f (← checkedSub a b)) = f (a - b) := by
    rw [checkedSub, if_neg (not_lt.mpr le)]
    rfl
  have empty : globalSize = 0 → cacheExpectedSize numCpus globalSize = 0 := by
    rintro rfl
    rw [cacheExpectedSize, Nat.zero_div, Nat.zero_div]
  unfold balanceOrder SubPage cacheMaximalSize cacheMinimalSize cacheMaximalMultiplier cacheMinimalPortion
  rw [pageSize_eq] at *
  generalize cacheExpectedSize numCpus globalSize = expected at *
  split
  · split
    · exact ⟨fun _ => by omega, fun _ => ⟨_, rfl⟩⟩
    · rw [sub (by omega), order]
      omega
  · split
    · split
      · omega
      · rw [sub (by omega), order]
        omega
    · exact ⟨fun _ => by omega, fun _ => ⟨_, rfl⟩⟩

section Depth

variable {m1 m2 : Nat}

/-- `balance_to` with a bound on the depth of its recursion. -/
def balanceToIn : Nat → Nat → BuddySet m1 → BuddySet m2 → Res (BuddySet m1 × BuddySet m2)
  | 0, _, _, _ => panicWith "too deep"
  | depth + 1, order, a, b => do
    match ← moveChunk order a b with
    | some moved => pure moved
    | none =>
      if 1 < order then do
        let (a, b) ← balanceToIn depth (order - 1) a b
        balanceToIn depth (order - 1) a b
      else pure (a, b)

theorem balanceToIn_eq (order : Nat) :
    (balanceToIn (order + 1) order : BuddySet m1 → BuddySet m2 → _) = balanceTo order := by
  funext a b
  induction order generalizing a b with
  | zero => rfl
  | succ order ih =>
    rw [balanceToIn, balanceTo]
    simp only [Nat.add_sub_cancel, ih]

end Depth

/-- `balance` finds the order of its chunks unless a part of a page is to move, and `balance_to` calls
itself no deeper than that order. -/
theorem balance_order_iff (numCpus seen : Nat) (p : Pools) (_ : 0 < numCpus)
    (whole : pageSize ∣ p.localPool.totalSize) :
    ((∃ found, balanceOrder numCpus (p.getGlobalSize seen) p.localPool.totalSize = .ok found) ↔
        ¬ SubPage (cacheExpectedSize numCpus (p.getGlobalSize seen)) p.localPool.totalSize) ∧
      p.balance numCpus seen =
        (do p.moveChunks (← balanceOrder numCpus (p.getGlobalSize seen) p.localPool.totalSize)) ∧
      ∀ {m1 m2 : Nat} (order : Nat),
        (balanceToIn (order + 1) order : BuddySet m1 → BuddySet m2 → _) = balanceTo order :=
  ⟨balanceOrder_ok_iff whole, p.balance_eq numCpus seen, balanceToIn_eq⟩

/-- A pool that holds one chunk. -/
def oneChunk {m : Nat} (order : Fin m) : BuddySet m :=
  ⟨sizeOfOrder order, Function.update (fun _ => []) order [⟨0, order⟩]⟩

/-- An empty local pool gets 32 of 64 pages; one with 64 pages keeps 4 of them when the global pool has 8. -/
theorem balance_order_oneChunk :
    (∃ found, balanceOrder 1 (sizeOfOrder 6) 0 = .ok found) ∧
    balance 1 0 ⟨newEmpty, oneChunk 6, true⟩ = moveChunks ⟨newEmpty, oneChunk 6, true⟩ (some (false, 5)) ∧
    (∃ found, balanceOrder 1 (sizeOfOrder 3) (sizeOfOrder 6) = .ok found) ∧
    balance 1 0 ⟨oneChunk 6, oneChunk 3, true⟩ = moveChunks ⟨oneChunk 6, oneChunk 3, true⟩
      (some (true, 5)) := by
  have grow := balance_order_iff 1 0 ⟨newEmpty, oneChunk 6, true⟩ one_pos (Nat.dvd_zero _)
  have shrink := balance_order_iff 1 0 ⟨oneChunk 6, oneChunk 3, true⟩ one_pos (pageSize_dvd_sizeOfOrder 6)
  have grows : balanceOrder 1 (sizeOfOrder 6) 0 = .ok (some (false, 5)) := by with_unfolding_all rfl
  have shrinks : balanceOrder 1 (sizeOfOrder 3) (sizeOfOrder 6) = .ok (some (true, 5)) := by with_unfolding_all rfl
  refine ⟨grow.1.mpr ?_, grow.2.1.trans (congrArg (· >>= _) grows), shrink.1.mpr ?_,
    shrink.2.1.trans (congrArg (· >>= _) shrinks)⟩
  all_goals
    unfold SubPage
    decide +kernel

/-- A global pool of one page: `balance` asks for the order of half a page. -/
theorem balance_single_page :
    (do
      let globalPool ← newEmpty.insertChunk pageSize 0
      balance 1 0 ⟨newEmpty, globalPool, true⟩) = panicWith "attempt to subtract with overflow" := by
  have insert : (newEmpty : BuddySet maxBuddyOrder).insertChunk pageSize 0 =
      .ok ⟨pageSize, Function.update (fun _ => []) 0 [⟨pageSize, 0⟩]⟩ := by
    simp [insertChunk, FreeChunk.fromUnused, coalesce, pushFront, newEmpty, sizeOfOrder]
  have order : balanceOrder 1 pageSize 0 = panicWith "attempt to subtract with overflow" := by
    with_unfolding_all rfl
  rw [insert, ok_bind, balance_eq]
  exact congrArg (· >>= _) order

end Pools

end OmegaOsx.FrameAllocator
