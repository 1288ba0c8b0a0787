import OmegaOsx.MlsDisk.SSTableBlock
import OmegaOsx.Lib.Pieces

/-!
# What building a table writes

`pack` says how the records are divided into blocks and `Packs` when that works out: the fill of a
block, counted as the code counts it, never goes beyond the block. `buildRecordBlocks_run` and
`buildRecordBlocks_overflow` tell the two cases apart.
-/

namespace OmegaOsx.MlsDisk

open List BlockBuilder

variable {κ K V : Type} [LinearOrder K] (env : SstEnv κ K V)

/-- The records of one block; no block is empty. -/
abbrev Group (K V : Type) := { records : List (K × ValueEx V) // records ≠ [] }

variable (current : List (K × ValueEx V)) (r : K × ValueEx V)

omit [LinearOrder K] in
theorem snoc_ne_nil : current ++ [r] ≠ [] := append_ne_nil_of_right_ne_nil _ (cons_ne_nil _ _)

def Group.snoc : Group K V :=
  ⟨current ++ [r], snoc_ne_nil current r⟩

omit [LinearOrder K] in
@[simp] theorem Group.snoc_val : (snoc current r).1 = current ++ [r] := rfl

variable (records : List (K × ValueEx V))

/-- The fill of a block as `inner_offset` counts it. -/
def counted : Nat := (records.map fun r => countedSize env r.2).sum

/-- The block that `current` is the beginning of takes the next record and stays open. -/
def StaysOpen : Prop :=
  counted env current + env.maxRecordSize ≤ recordBlockSize

instance (current : List (K × ValueEx V)) : Decidable (StaysOpen env current) :=
  inferInstanceAs (Decidable (_ ≤ _))

/-- How records are divided into blocks, after `current` in the open block. -/
def packFrom (current : List (K × ValueEx V)) : List (K × ValueEx V) → List (Group K V)
  | [] => if h : current = [] then [] else [⟨current, h⟩]
  | r :: rs =>
    if StaysOpen env (current ++ [r]) then packFrom (current ++ [r]) rs
    else Group.snoc current r :: packFrom [] rs

def pack : List (Group K V) := packFrom env [] records

/-- No block is counted fuller than it is large. -/
def PacksFrom (current : List (K × ValueEx V)) : List (K × ValueEx V) → Prop
  | [] => True
  | r :: rs =>
    counted env (current ++ [r]) ≤ recordBlockSize ∧
      PacksFrom (if StaysOpen env (current ++ [r]) then current ++ [r] else []) rs

def Packs : Prop := PacksFrom env [] records

instance decidablePacksFrom (current : List (K × ValueEx V)) :
    (records : List (K × ValueEx V)) → Decidable (PacksFrom env current records)
  | [] => .isTrue trivial
  | r :: rs =>
    haveI := decidablePacksFrom (if StaysOpen env (current ++ [r]) then current ++ [r] else []) rs
    inferInstanceAs (Decidable (_ ∧ _))

instance (records : List (K × ValueEx V)) : Decidable (Packs env records) :=
  decidablePacksFrom env [] records

theorem counted_append (xs ys : List (K × ValueEx V)) : counted env (xs ++ ys) = counted env xs + counted env ys := by
  rw [counted, map_append, sum_append]
  rfl

theorem counted_singleton : counted env [r] = countedSize env r.2 := by
  simp [counted]

theorem length_blockBytes_le : (blockBytes env records).length ≤ counted env records := by
  induction records with
  | nil => exact le_rfl
  | cons r rs ih =>
    have := length_recordBytes_le env r.1 r.2
    rw [blockBytes_cons, length_append, ← singleton_append, counted_append, counted_singleton]
    omega

theorem flatMap_packFrom (current records : List (K × ValueEx V)) :
    (packFrom env current records).flatMap Subtype.val = current ++ records := by
  induction records generalizing current with
  | nil =>
    unfold packFrom
    split
    next h => rw [h]; rfl
    next => simp
  | cons r rs ih =>
    unfold packFrom
    split
    · rw [ih, append_assoc, singleton_append]
    · rw [flatMap_cons, ih]
      simp

/-- Every record is in one of the blocks, in order. -/
theorem flatMap_pack : (pack env records).flatMap Subtype.val = records := flatMap_packFrom env [] records

variable {records : List (K × ValueEx V)}

theorem counted_le_of_packsFrom {current : List (K × ValueEx V)} (packs : PacksFrom env current records)
    (small : counted env current ≤ recordBlockSize) :
    ∀ g ∈ packFrom env current records, counted env g.1 ≤ recordBlockSize := by
  induction records generalizing current with
  | nil =>
    unfold packFrom
    split
    · exact fun _ h => nomatch h
    · rintro g (_ | ⟨_, ⟨⟩⟩)
      exact small
  | cons r rs ih =>
    obtain ⟨fits, rest⟩ := packs
    unfold packFrom
    split
    next stays =>
      rw [if_pos stays] at rest
      exact ih rest fits
    next closes =>
      rw [if_neg closes] at rest
      rintro g (_ | ⟨_, mem⟩)
      · exact fits
      · exact ih rest (Nat.zero_le _) g mem

def Group.block (g : Group K V) : Bytes := resize (blockBytes env g.1) recordBlockSize

omit [LinearOrder K] in
/-- The index entry of block number `i`. -/
def Group.entry (i : Nat) (g : Group K V) : IndexEntry K where
  pos := recordBlockNblocks * i
  first := (g.1.head g.2).1
  last := (g.1.getLast g.2).1

omit [LinearOrder K] in
theorem Group.entry_pos (i : Nat) (g : Group K V) : (entry i g).pos = recordBlockNblocks * i := rfl

theorem Group.length_block (g : Group K V) : (block env g).length = recordBlockSize := length_resize _ _

theorem Group.stored {g : Group K V} (small : counted env g.1 ≤ recordBlockSize) :
    Stored env (block env g) 0 g.1 := by
  refine ⟨length_resize _ _, [], recordBlockSize - (blockBytes env g.1).length, rfl, ?_⟩
  rw [block, resize_of_le ((length_blockBytes_le env g.1).trans small)]
  rfl

/-! ## The log and the cache -/

/-- The record block at a position of a log. -/
def blockAt (log : Bytes) (pos : Nat) : Option Bytes :=
  if (pos + recordBlockNblocks) * blockSize ≤ log.length then
    some ((log.drop (pos * blockSize)).take (recordBlockNblocks * blockSize))
  else none

/-- The cache answers what the log has. -/
def CacheSound (s : TableState κ K V) : Prop :=
  ∀ pos block, env.cache.holds s.cache pos block → blockAt s.log pos = some block

theorem blockAt_append {log : Bytes} {pos : Nat} {block : Bytes} (h : blockAt log pos = some block)
    (more : Bytes) : blockAt (log ++ more) pos = some block := by
  unfold blockAt at h ⊢
  split at h
  next inside =>
    have start : pos * blockSize ≤ log.length := (Nat.mul_le_mul_right _ (Nat.le_add_right _ _)).trans inside
    have room : recordBlockNblocks * blockSize ≤ (log.drop (pos * blockSize)).length := by
      rw [length_drop]
      rw [add_mul] at inside
      omega
    rw [if_pos (inside.trans (by rw [length_append]; exact Nat.le_add_right _ _)),
      drop_append_of_le_length start, take_append_of_le_length room]
    exact h
  next => cases h

theorem blockAt_end {log block : Bytes} {pos : Nat} (at_end : log.length = pos * blockSize)
    (size : block.length = recordBlockSize) : blockAt (log ++ block) pos = some block := by
  rw [recordBlockSize_eq] at size
  unfold blockAt
  rw [if_pos (by rw [length_append, at_end, size, add_mul]), drop_left' at_end, take_of_length_le (le_of_eq size)]

theorem flatMap_block_end (groups : List (Group K V)) :
    (groups.flatMap (Group.block env)).length = recordBlockNblocks * groups.length * blockSize := by
  rw [Pieces.length_flatMap_const (Group.length_block env), recordBlockSize_eq, ← mul_assoc, mul_comm groups.length]

variable {env} in
theorem CacheSound.put {s : TableState κ K V} {pos : Nat} {block : Bytes} (cached : CacheSound env s)
    (at_pos : blockAt s.log pos = some block) :
    CacheSound env { s with cache := env.cache.put s.cache pos block } := by
  intro pos' block' held
  obtain ⟨rfl, rfl⟩ | old := env.cache.put_holds held
  · exact at_pos
  · exact cached _ _ old

/-- Block number `i` is where its index entry says. -/
theorem blockAt_flatMap {groups : List (Group K V)} {i : Nat} {g : Group K V}
    (at_i : groups[i]? = some g) (more : Bytes) :
    blockAt (groups.flatMap (Group.block env) ++ more) (recordBlockNblocks * i) = some (Group.block env g) := by
  obtain ⟨inside, -⟩ := List.getElem?_eq_some_iff.mp at_i
  have bound : (recordBlockNblocks * i + recordBlockNblocks) * blockSize ≤
      (groups.flatMap (Group.block env) ++ more).length := by
    rw [length_append, flatMap_block_end]
    exact (Nat.mul_le_mul_right _ (Nat.mul_le_mul_left _ inside)).trans (Nat.le_add_right _ _)
  have start : recordBlockNblocks * i * blockSize = i * recordBlockSize := by
    rw [recordBlockSize_eq, ← mul_assoc, mul_comm i]
  unfold blockAt
  rw [if_pos bound, start, ← recordBlockSize_eq]
  exact congrArg some (Pieces.piece_flatMap (Group.length_block env) at_i more)

/-! ## The loop -/

/-- Where the loop stands: `finished` blocks are written, the records of `current` are buffered. -/
structure Builds (b : BlockBuilder K) (s : TableState κ K V) (finished : List (Group K V))
    (current : List (K × ValueEx V)) : Prop where
  index : b.indexVec = finished.mapIdx Group.entry
  pos : b.pos = recordBlockNblocks * finished.length
  offset : b.innerOffset = counted env current
  buffer : b.blockBuf = blockBytes env current
  first : ∀ h : current ≠ [], b.firstK = some (current.head h).1
  curr : ∀ h : current ≠ [], b.currK = some (current.getLast h).1
  log : s.log = finished.flatMap (Group.block env)
  cached : CacheSound env s

theorem countedSize_pos (v : ValueEx V) : 0 < countedSize env v := by
  cases v <;> (rw [countedSize]; try rw [SstEnv.maxRecordSize]) <;> omega

theorem counted_eq_zero (h : counted env records = 0) : records = [] := by
  cases records with
  | nil => rfl
  | cons r rs =>
    rw [← singleton_append, counted_append, counted_singleton] at h
    have := countedSize_pos env r.2
    omega

theorem buildOneRecordBlock_run {s : TableState κ K V} {finished : List (Group K V)} (g : Group K V)
    (entry : IndexEntry K) (log : s.log = finished.flatMap (Group.block env))
    (cached : CacheSound env s) (at_end : entry.pos = recordBlockNblocks * finished.length) :
    ∃ s', (buildOneRecordBlock env entry (blockBytes env g.1)).run s = .ok () s' ∧
      s'.log = (finished ++ [g]).flatMap (Group.block env) ∧ CacheSound env s' := by
  refine ⟨_, rfl, ?_, CacheSound.put (fun _ _ held => blockAt_append (cached _ _ held) _) ?_⟩
  · rw [flatMap_append, ← log, flatMap_singleton]
    rfl
  · refine blockAt_end ?_ (length_resize _ _)
    rw [log, flatMap_block_end, at_end]

/-- Reporting to the listener changes neither log nor cache. -/
theorem Builds.onAddRecord {b : BlockBuilder K} {s : TableState κ K V} {finished : List (Group K V)}
    {current : List (K × ValueEx V)} (inv : Builds env b s finished current) (listening : Bool)
    (r : K × ValueEx V) :
    ∃ s', (onAddRecord listening r.1 r.2).run s = .ok () s' ∧ Builds env b s' finished current := by
  cases listening with
  | false => exact ⟨s, rfl, inv⟩
  | true => exact ⟨_, rfl, inv.1, inv.2, inv.3, inv.4, inv.5, inv.6, inv.7, inv.8⟩

variable {env} {b : BlockBuilder K} {s : TableState κ K V} {finished : List (Group K V)}
  {current : List (K × ValueEx V)} (listening : Bool)

section

variable (inv : Builds env b s finished current)

include inv

theorem Builds.firstK_next : (if b.innerOffset = 0 then some r.1 else b.firstK) =
      some ((current ++ [r]).head (snoc_ne_nil current r)).1 := by
  rw [inv.offset]
  split
  next zero =>
    cases counted_eq_zero env zero
    rfl
  next full =>
    have started : current ≠ [] := fun h => full (h ▸ rfl)
    rw [inv.first started, head_append_of_ne_nil started]

/-- One round with a record that fits. -/
theorem Builds.add_run {r : K × ValueEx V} (fits : counted env (current ++ [r]) ≤ recordBlockSize) :
    ∃ b' s', (b.add env listening r).run s = .ok b' s' ∧ Builds env b' s'
        (if StaysOpen env (current ++ [r]) then finished else finished ++ [Group.snoc current r])
        (if StaysOpen env (current ++ [r]) then current ++ [r] else []) := by
  obtain ⟨s1, reported, inv1⟩ := inv.onAddRecord env listening r
  have offset : b.innerOffset + countedSize env r.2 = counted env (current ++ [r]) := by
    rw [inv.offset, counted_append, counted_singleton]
  have buffer : b.blockBuf ++ recordBytes env r.1 r.2 = blockBytes env (current ++ [r]) := by
    rw [inv.buffer, blockBytes, blockBytes, flatMap_append, flatMap_singleton]
  have remained : (env.maxRecordSize ≤ recordBlockSize - counted env (current ++ [r])) ↔
      StaysOpen env (current ++ [r]) := by
    unfold StaysOpen
    omega
  unfold add
  dsimp only
  rw [run_bind reported, offset, checkedSub_of_le fits, run_liftRes_bind, buffer, inv.firstK_next r]
  by_cases stays : StaysOpen env (current ++ [r])
  · rw [if_pos (remained.mpr stays), if_pos stays, if_pos stays]
    refine ⟨_, _, rfl, inv.index, inv.pos, rfl, rfl, fun _ => rfl, fun h => ?_, inv1.log, inv1.cached⟩
    rw [getLast_append_singleton]
  rw [if_neg (remained.not.mpr stays), if_neg stays, if_neg stays]
  -- the block is full: it is written, and the next one is empty
  let entry := Group.entry finished.length (Group.snoc current r)
  obtain ⟨s2, written, log, cached⟩ :=
    buildOneRecordBlock_run env (Group.snoc current r) entry inv1.log inv1.cached rfl
  have same : ⟨b.pos, ((current ++ [r]).head (snoc_ne_nil current r)).1, r.1⟩ = entry := by
    show _ = (⟨_, _, _⟩ : IndexEntry K)
    rw [inv.pos]
    simp [Group.snoc]
  rw [Group.snoc_val] at written
  simp only [run_unwrapOption_bind]
  rw [same, run_bind written]
  refine ⟨_, _, rfl, ?_, ?_, rfl, rfl, fun h => absurd rfl h, fun h => absurd rfl h, log, cached⟩
  · rw [mapIdx_append, ← inv.index]
    simp [entry]
  · rw [length_append, inv.pos, length_singleton, Nat.mul_succ]

/-- One round with a record that does not fit. -/
theorem Builds.add_overflow {r : K × ValueEx V} (beyond : ¬ counted env (current ++ [r]) ≤ recordBlockSize) :
    ∃ msg s', (b.add env listening r).run s = .error (.panic msg) s' := by
  obtain ⟨s1, reported, -⟩ := inv.onAddRecord env listening r
  have offset : b.innerOffset + countedSize env r.2 = counted env (current ++ [r]) := by
    rw [inv.offset, counted_append, counted_singleton]
  unfold add
  dsimp only
  rw [run_bind reported, offset, checkedSub, if_neg beyond]
  exact ⟨_, _, rfl⟩

theorem Builds.addAll_run (packs : PacksFrom env current records) :
    ∃ b' s' finished' current', (b.addAll env listening records).run s = .ok b' s' ∧
      Builds env b' s' finished' current' ∧
      finished ++ packFrom env current records = finished' ++ packFrom env current' [] := by
  induction records generalizing b s finished current with
  | nil => exact ⟨b, s, finished, current, rfl, inv, rfl⟩
  | cons r rs ih =>
    obtain ⟨fits, rest⟩ := packs
    obtain ⟨b1, s1, one, inv1⟩ := inv.add_run listening fits
    obtain ⟨b', s', finished', current', all, inv', groups⟩ := ih inv1 rest
    refine ⟨b', s', finished', current', ?_, inv', ?_⟩
    · rw [addAll, run_bind one]
      exact all
    rw [← groups, packFrom]
    split
    · rfl
    · rw [append_assoc, singleton_append]

theorem Builds.addAll_overflow (beyond : ¬ PacksFrom env current records) :
    ∃ msg s', (b.addAll env listening records).run s = .error (.panic msg) s' := by
  induction records generalizing b s finished current with
  | nil => exact absurd trivial beyond
  | cons r rs ih =>
    rw [addAll]
    by_cases fits : counted env (current ++ [r]) ≤ recordBlockSize
    · obtain ⟨b1, s1, one, inv1⟩ := inv.add_run listening fits
      rw [run_bind one]
      exact ih inv1 fun rest => beyond ⟨fits, rest⟩
    · obtain ⟨msg, s', one⟩ := inv.add_overflow listening fits
      rw [run_bind_error one]
      exact ⟨msg, s', rfl⟩

end

/-! ## Building the blocks -/

/-- The state in which a table is built: a new log, and nothing reported. -/
def TableState.created (env : SstEnv κ K V) : TableState κ K V := ⟨[], env.newCache, [], []⟩

theorem builds_created : Builds env .new (.created env) [] [] where
  index := rfl
  pos := rfl
  offset := rfl
  buffer := rfl
  first := fun h => absurd rfl h
  curr := fun h => absurd rfl h
  log := rfl
  cached := fun _ _ held => absurd held env.newCache_holds

theorem blockBytes_eq_nil : (blockBytes env records).isEmpty ↔ records = [] := by
  constructor
  · intro h
    have := length_le_blockBytes env records
    rw [isEmpty_iff.mp h] at this
    exact length_eq_zero_iff.mp (Nat.le_zero.mp this)
  · rintro rfl
    rfl

theorem buildRecordBlocks_run (packs : Packs env records) :
    ∃ total s, (buildRecordBlocks env listening records).run (.created env) =
        .ok (total, (pack env records).mapIdx Group.entry) s ∧
      s.log = (pack env records).flatMap (Group.block env) ∧ CacheSound env s := by
  obtain ⟨b, s, finished, current, all, inv, groups⟩ := builds_created.addAll_run listening packs
  rw [nil_append] at groups
  unfold buildRecordBlocks pack
  rw [run_bind all, groups]
  by_cases done : current = []
  · have empty : b.blockBuf.isEmpty := by
      rw [inv.buffer]
      exact blockBytes_eq_nil.mpr done
    rw [if_pos empty, packFrom, dif_pos done, append_nil, ← inv.index]
    exact ⟨_, _, rfl, inv.log, inv.cached⟩
  have open' : ¬ b.blockBuf.isEmpty := by
    rw [inv.buffer]
    exact blockBytes_eq_nil.not.mpr done
  obtain ⟨s', written, log, cached⟩ := buildOneRecordBlock_run env ⟨current, done⟩
    (Group.entry finished.length ⟨current, done⟩) inv.log inv.cached rfl
  rw [if_neg open', packFrom, dif_neg done, inv.first done, inv.curr done, inv.pos, inv.buffer]
  have index : mapIdx Group.entry (finished ++ [⟨current, done⟩]) =
      b.indexVec ++ [Group.entry finished.length ⟨current, done⟩] := by
    rw [mapIdx_append, ← inv.index]
    simp
  simp only [run_unwrapOption_bind]
  rw [index]
  exact ⟨_, _, run_bind written, log, cached⟩

theorem buildRecordBlocks_overflow (beyond : ¬ Packs env records) :
    ∃ msg s, (buildRecordBlocks env listening records).run (.created env) = .error (.panic msg) s := by
  obtain ⟨msg, s, all⟩ := builds_created.addAll_overflow listening beyond
  exact ⟨msg, s, run_bind_error all⟩

end OmegaOsx.MlsDisk
