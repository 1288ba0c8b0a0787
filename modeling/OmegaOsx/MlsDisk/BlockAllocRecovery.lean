import OmegaOsx.MlsDisk.BlockAlloc

/-!
# Recovery of the allocation table

`Consistent` says what holds in every state: the counter counts the free bits, and as long as the
table is not dirty, the logs replay to its bitmap. Diff logs and compactions keep it in any order, and
so does a crash. A block given back by `set_deallocated` is written to no log and does not make the
table dirty, and the counter is raised whether or not the block was free; so such a call keeps
`Consistent` only on an allocated block of a dirty table (`recovered_of_clean`). Opening a disk replays
its write-ahead log into the memtable of the tree, and there the calls are not of that kind
(`replayed_drop`).
-/

namespace OmegaOsx.MlsDisk

open BitMap List AllocTable BlockAlloc LittleEndian

/-! ### Setting many bits -/

variable {bm : BitMap}

theorem BitMap.countOnes_set_true {i : Nat} (zero : bm[i]? = some false) :
    countOnes (bm.set i true) = bm.countOnes + 1 := by
  obtain ⟨inside, eq⟩ := List.getElem?_eq_some_iff.mp zero
  unfold countOnes
  rw [count_set inside, eq]
  simp

theorem BitMap.countOnes_set_false {i : Nat} (one : bm[i]? = some true) :
    countOnes (bm.set i false) + 1 = bm.countOnes := by
  obtain ⟨inside, eq⟩ := List.getElem?_eq_some_iff.mp one
  have pos : 0 < bm.count true := count_pos_iff.mpr (eq ▸ getElem_mem inside)
  unfold countOnes
  rw [count_set inside, eq]
  simp
  omega

theorem BitMap.clearAll_run {hbas : List Hba} (nodup : hbas.Nodup) (ones : ∀ hba ∈ hbas, bm[hba]? = some true) :
    ∃ bm' : BitMap, hbas.foldlM (fun bm hba => setBit bm hba false) bm = .ok bm' ∧
      bm'.length = bm.length ∧ bm'.countOnes + hbas.length = bm.countOnes := by
  induction hbas generalizing bm with
  | nil => exact ⟨bm, rfl, rfl, rfl⟩
  | cons hba hbas ih =>
    obtain ⟨fresh, nodup⟩ := nodup_cons.mp nodup
    have one := ones hba mem_cons_self
    have set : bm.setBit hba false = .ok (bm.set hba false) :=
      setBit_ok.mpr ⟨(List.getElem?_eq_some_iff.mp one).1, rfl⟩
    have rest : ∀ h ∈ hbas, (bm.set hba false)[h]? = some true := fun h mem => by
      have ne : hba ≠ h := fun same => fresh (same ▸ mem)
      rw [getElem?_set_ne ne]
      exact ones h (mem_cons_of_mem _ mem)
    obtain ⟨bm', returns, length, count⟩ := ih nodup rest
    refine ⟨bm', ?_, length.trans length_set, ?_⟩
    · rw [foldlM_cons, set]
      exact returns
    · have := countOnes_set_false one
      rw [length_cons]
      omega

/-! ### Allocation -/

theorem BitMap.firstOne_zero (some : 0 < bm.length) : bm.firstOne 0 = .ok bm.ones.head? := by
  unfold firstOne
  rw [checkIndex_of_lt some, ok_bind]
  cases bm.ones <;> simp <;> rfl

variable {count : Nat}

theorem BitMap.firstOnes_of_le {start : Nat} (pos : 0 < count) (inside : start + count ≤ bm.length) :
    bm.firstOnes start count = .ok (if ((bm.ones.filter (start ≤ ·)).take count).length = count
        then some ((bm.ones.filter (start ≤ ·)).take count) else none) := by
  unfold firstOnes
  rw [checkedSub_of_le (by omega), ok_bind, checkIndex_of_lt (by omega)]
  rfl

theorem BitMap.exists_first (pos : 0 < count) (enough : count ≤ bm.countOnes) :
    ∃ first, bm.ones.head? = some first := by
  cases eq : bm.ones with
  | nil =>
    rw [← length_ones, eq] at enough
    exact absurd enough (Nat.not_le_of_lt pos)
  | cons first rest => exact ⟨first, rfl⟩

variable {diffs : List (Hba × AllocDiff)} {bytes : Bytes} {more : List (Hba × AllocDiff)} {t : AllocTable}

namespace AllocTable

/-- `count` free blocks were taken from `t`. -/
structure Took (t : AllocTable) (count : Nat) (hbas : List Hba) (t' : AllocTable) : Prop where
  length : hbas.length = count
  free : hbas.Sublist t.bitmap.ones
  size : t'.bitmap.length = t.bitmap.length
  countOnes : t'.bitmap.countOnes + count = t.bitmap.countOnes
  nblocks : t'.nblocks = t.nblocks
  numFree : t'.numFree = t.numFree

theorem takeBlocks_run {hbas : List Hba} (pos : 0 < count) (length : hbas.length = count)
    (free : hbas.Sublist t.bitmap.ones) : ∃ t', t.takeBlocks hbas = .ok (hbas, t') ∧ t.Took count hbas t' := by
  obtain ⟨bitmap, returns, size, ones⟩ := clearAll_run (free.nodup (nodup_ones _))
    fun hba mem => mem_ones.mp (free.subset mem)
  have some : hbas ≠ [] := ne_nil_of_length_pos (length ▸ pos)
  unfold takeBlocks
  rw [returns, getLast?_eq_some_getLast some]
  exact ⟨_, rfl, length, free, size, length ▸ ones, rfl, rfl⟩

/-- When there are enough free blocks, the search from the first of them finds them. -/
theorem allocFromStart_run {first : Nat} (pos : 0 < count) (enough : count ≤ t.bitmap.countOnes)
    (head : t.bitmap.ones.head? = some first) :
    ∃ hbas, t.bitmap.firstOnes first count = .ok (some hbas) ∧ hbas.length = count ∧
      hbas.Sublist t.bitmap.ones := by
  have room := head_add_countOnes_le head
  have all : t.bitmap.ones.filter (first ≤ ·) = t.bitmap.ones := by
    obtain ⟨rest, eq⟩ := head?_eq_some_iff.mp head
    have sorted := sorted_ones t.bitmap
    rw [eq] at sorted ⊢
    refine filter_eq_self.mpr fun i mem => decide_eq_true ?_
    rcases mem_cons.mp mem with rfl | mem
    · exact le_rfl
    · exact le_of_lt ((pairwise_cons.mp sorted).1 i mem)
  have length : (t.bitmap.ones.take count).length = count := by
    rw [length_take, length_ones]
    exact min_eq_left enough
  rw [firstOnes_of_le pos (by omega), all, if_pos length]
  exact ⟨_, rfl, length, take_sublist _ _⟩

theorem allocFrom_run {nextAvail : Nat} (pos : 0 < count) (enough : count ≤ t.bitmap.countOnes)
    (inside : nextAvail + count ≤ t.bitmap.length) :
    ∃ hbas t', t.allocFrom nextAvail count = .ok (some (hbas, t')) ∧ t.Took count hbas t' := by
  unfold allocFrom
  rw [firstOnes_of_le pos inside, ok_bind]
  by_cases found : ((t.bitmap.ones.filter (nextAvail ≤ ·)).take count).length = count
  · rw [if_pos found]
    have free : ((t.bitmap.ones.filter (nextAvail ≤ ·)).take count).Sublist t.bitmap.ones :=
      (take_sublist _ _).trans filter_sublist
    obtain ⟨t', returns, took⟩ := takeBlocks_run pos found free
    dsimp only
    rw [returns]
    exact ⟨_, _, rfl, took⟩
  · rw [if_neg found]
    obtain ⟨first, head⟩ := exists_first pos enough
    obtain ⟨hbas, search, length, free⟩ := allocFromStart_run pos enough head
    obtain ⟨t', returns, took⟩ := takeBlocks_run pos length free
    unfold allocFromStart
    rw [firstOne_zero (by omega), ok_bind, head]
    dsimp only
    rw [search, ok_bind]
    dsimp only
    rw [returns]
    exact ⟨_, _, rfl, took⟩

/-- With a right counter, a call that need not wait returns so many distinct free blocks. -/
theorem allocBatch_run (pos : 0 < count) (size : t.bitmap.length = t.nblocks) (counter : t.numFree = t.bitmap.countOnes)
    (enough : count ≤ t.numFree) : ∃ hbas t', t.allocBatch count = .ok (hbas, t') ∧
    hbas.length = count ∧ hbas.Nodup ∧
      (∀ hba ∈ hbas, t.bitmap[hba]? = some true) ∧ t'.bitmap.length = t.bitmap.length ∧
      t'.nblocks = t.nblocks ∧ t'.numFree = t'.bitmap.countOnes ∧ t'.isDirty = true := by
  rw [counter] at enough
  obtain ⟨hbas, t', returns, took⟩ : ∃ hbas t', t.doAllocBatch count = .ok (some (hbas, t')) ∧
      t.Took count hbas t' := by
    unfold doAllocBatch
    split
    · obtain ⟨first, head⟩ := exists_first pos enough
      have room := head_add_countOnes_le head
      rw [firstOne_zero (by omega), head]
      exact allocFrom_run pos enough (by omega)
    · exact allocFrom_run pos enough (by omega)
  have free := took.countOnes
  have same := took.numFree
  unfold allocBatch
  rw [returns, ok_bind]
  dsimp only
  rw [checkedSub_of_le (by omega)]
  refine ⟨hbas, _, rfl, took.length, took.free.nodup (nodup_ones _),
    fun hba mem => mem_ones.mp (took.free.subset mem), took.size, took.nblocks, ?_, rfl⟩
  dsimp only
  omega

/-! ### The diff logs -/

/-- The bytes hold these diffs, one after the other, with zero bytes between and behind them. -/
inductive DiffStream : List (Hba × AllocDiff) → Bytes → Prop
  | nil : DiffStream [] []
  | pad {diffs : List (Hba × AllocDiff)} {bytes : Bytes} (rest : DiffStream diffs bytes) :
      DiffStream diffs (0 :: bytes)
  | diff {diff : Hba × AllocDiff} {diffs : List (Hba × AllocDiff)} {bytes : Bytes}
      (fits : diff.1 < 256 ^ 8) (valid : diff.2 ≠ .invalid) (rest : DiffStream diffs bytes) :
      DiffStream (diff :: diffs) (diffBytes diff ++ bytes)

theorem DiffStream.length (stream : DiffStream diffs bytes) (some : diffs ≠ []) :
    diffRecordSize ≤ bytes.length := by
  induction stream with
  | nil => exact absurd rfl some
  | pad _ ih => exact Nat.le_succ_of_le (ih some)
  | diff =>
    rw [length_append]
    exact Nat.le_add_right _ _

theorem ofByte_toByte {diff : AllocDiff} (valid : diff ≠ .invalid) : .ofByte diff.toByte = diff := by
  cases diff with
  | alloc => rfl
  | dealloc => rfl
  | invalid => exact absurd rfl valid

/-- Replaying a log applies its diffs in order. -/
theorem DiffStream.replayFrom (stream : DiffStream diffs bytes) {fuel : Nat} (enough : bytes.length < fuel)
    (bm : BitMap) : replayFrom fuel bytes bm = diffs.foldlM replayDiff bm := by
  induction stream generalizing fuel bm with
  | nil =>
    cases fuel with
    | zero => exact absurd enough (Nat.not_lt_zero _)
    | succ fuel => rfl
  | @pad diffs bytes rest ih =>
    cases fuel with
    | zero => exact absurd enough (Nat.not_lt_zero _)
    | succ fuel =>
      unfold AllocTable.replayFrom
      split
      · next short =>
        -- too short for another diff
        have none : diffs = [] := by
          by_contra some
          exact absurd (rest.length some) (by rw [length_cons] at short; omega)
        rw [none]
        rfl
      · exact ih (Nat.lt_of_succ_lt_succ enough) bm
  | @diff diff diffs bytes fits valid rest ih =>
    cases fuel with
    | zero => exact absurd enough (Nat.not_lt_zero _)
    | succ fuel =>
      have length : (toBytes 8 diff.1).length = 8 := length_toBytes _ _
      unfold diffBytes at enough ⊢
      rw [cons_append] at enough ⊢
      unfold AllocTable.replayFrom
      rw [length_cons, length_append] at enough ⊢
      rw [if_neg (by unfold diffRecordSize; omega), ofByte_toByte valid, if_neg valid,
        take_left' length, drop_left' length, ofBytes_toBytes_of_lt fits,
        foldlM_cons]
      refine bind_congr fun bm' => ih ?_ bm'
      omega

theorem padBlock_eq (buf : Bytes) : ∃ n, padBlock buf = buf ++ replicate n 0 := by
  have le : buf.length ≤ alignUp buf.length blockSize := le_alignUp _ (by decide +kernel)
  refine ⟨alignUp buf.length blockSize - buf.length, ?_⟩
  unfold padBlock resize
  rw [take_of_length_le le]

theorem DiffStream.zeros (stream : DiffStream diffs bytes) (n : Nat) : DiffStream diffs (replicate n 0 ++ bytes) := by
  induction n with
  | zero => exact stream
  | succ n ih => exact ih.pad

/-- Every diff can be written. -/
def Writable (diffs : List (Hba × AllocDiff)) : Prop :=
  ∀ diff ∈ diffs, diff.1 < 256 ^ 8 ∧ diff.2 ≠ .invalid

theorem DiffStream.append (stream : DiffStream more bytes) (writable : Writable diffs) :
    DiffStream (diffs ++ more) (diffs.flatMap diffBytes ++ bytes) := by
  induction diffs with
  | nil => exact stream
  | cons diff diffs ih =>
    obtain ⟨⟨fits, valid⟩, rest⟩ := forall_mem_cons.mp writable
    exact .diff fits valid (ih rest)

theorem DiffStream.padBlock (stream : DiffStream more bytes) (writable : Writable diffs) :
    DiffStream (diffs ++ more) (padBlock (diffs.flatMap diffBytes) ++ bytes) := by
  obtain ⟨n, eq⟩ := padBlock_eq (diffs.flatMap diffBytes)
  rw [eq, append_assoc]
  exact (stream.zeros n).append writable

/-- What `update_diff_log` writes holds the diffs, in the order of the table. -/
theorem diffStream_diffBuffers {filled : List (Hba × AllocDiff)} (writable : Writable diffs)
    (writable' : Writable filled) :
    DiffStream (filled ++ diffs) (diffBuffers diffs (filled.flatMap diffBytes)).flatten := by
  induction diffs generalizing filled with
  | nil =>
    unfold diffBuffers
    split
    · next empty =>
      cases filled with
      | nil => exact .nil
      | cons diff rest => cases empty
    · exact DiffStream.nil.padBlock writable'
  | cons diff diffs ih =>
    obtain ⟨first, rest⟩ := forall_mem_cons.mp writable
    have snoc : Writable (filled ++ [diff]) := forall_mem_append.mpr ⟨writable', forall_mem_singleton.mpr first⟩
    have bytes : filled.flatMap diffBytes ++ diffBytes diff = (filled ++ [diff]).flatMap diffBytes := by
      rw [flatMap_append, flatMap_singleton]
    have order : filled ++ diff :: diffs = filled ++ [diff] ++ diffs := by simp
    unfold diffBuffers
    dsimp only
    rw [bytes, order]
    split
    · have after : DiffStream ([] ++ diffs) (diffBuffers diffs []).flatten := ih rest nofun
      exact after.padBlock snoc
    · exact ih rest snoc

end AllocTable

/-! ### The diff table of a transaction -/

namespace BlockAlloc

theorem valid_diffTable {calls : List BlockCall} {diff : Hba × AllocDiff}
    (mem : diff ∈ (diffTable calls).entries) : diff.2 ≠ .invalid := by
  have keep : ∀ (calls : List BlockCall) table, (∀ diff ∈ table.entries, diff.2 ≠ .invalid) →
      ∀ diff ∈ (calls.foldl record table).entries, diff.2 ≠ .invalid := by
    intro calls
    induction calls with
    | nil => exact fun _ valid => valid
    | cons call calls ih =>
      refine fun table valid => ih _ fun diff mem => ?_
      cases call with
      | allocBlock blockId | deallocBlock blockId =>
        rcases SortedMap.mem_insertInto mem with rfl | mem
        · exact nofun
        · exact valid diff mem
  exact keep calls .empty nofun diff mem

/-- On blocks that are allocated, updating the table and replaying the log change the bitmap alike,
and the blocks counted are the bits set. -/
theorem applyDiff_run (sorted : diffs.Pairwise fun d d' => d.1 < d'.1) (valid : ∀ diff ∈ diffs, diff.2 ≠ .invalid)
    {n : Nat} (allocated : ∀ diff ∈ diffs, bm[diff.1]? = some false) :
    ∃ (bm' : BitMap) (k : Nat), diffs.foldlM applyDiff (bm, n) = .ok (bm', n + k) ∧
      diffs.foldlM replayDiff bm = .ok bm' ∧ bm'.countOnes = bm.countOnes + k := by
  induction diffs generalizing bm n with
  | nil => exact ⟨bm, 0, rfl, rfl, rfl⟩
  | cons diff diffs ih =>
    obtain ⟨hba, kind⟩ := diff
    obtain ⟨first, tail⟩ := pairwise_cons.mp sorted
    obtain ⟨ok, valid'⟩ := forall_mem_cons.mp valid
    obtain ⟨zero, others⟩ := forall_mem_cons.mp allocated
    have inside := (List.getElem?_eq_some_iff.mp zero).1
    cases kind with
    | alloc =>
      have same : setBit bm hba false = .ok bm := by
        refine setBit_ok.mpr ⟨inside, ?_⟩
        obtain ⟨_, eq⟩ := List.getElem?_eq_some_iff.mp zero
        rw [← eq, set_getElem_self]
      obtain ⟨bm', k, update, replay, count⟩ := ih tail valid' others
      refine ⟨bm', k, update, ?_, count⟩
      rw [foldlM_cons, replayDiff, same]
      exact replay
    | dealloc =>
      have set : setBit bm hba true = .ok (bm.set hba true) := setBit_ok.mpr ⟨inside, rfl⟩
      have later : ∀ diff ∈ diffs, (bm.set hba true)[diff.1]? = some false := fun diff mem => by
        have ne : hba ≠ diff.1 := ne_of_lt (first diff mem)
        rw [getElem?_set_ne ne]
        exact others diff mem
      obtain ⟨bm', k, update, replay, count⟩ := ih tail valid' later
      have one : countOnes (bm.set hba true) = bm.countOnes + 1 := countOnes_set_true zero
      refine ⟨bm', k + 1, ?_, ?_, by omega⟩
      · rw [foldlM_cons, applyDiff, set]
        rw [add_assoc, add_comm 1 k] at update
        exact update
      · rw [foldlM_cons, replayDiff, set]
        exact replay
    | invalid => exact absurd rfl ok

theorem replayDiff_run (valid : ∀ diff ∈ diffs, diff.2 ≠ .invalid)
    (inside : ∀ diff ∈ diffs, diff.1 < bm.length) :
    ∃ bm' : BitMap, diffs.foldlM replayDiff bm = .ok bm' ∧ bm'.length = bm.length := by
  induction diffs generalizing bm with
  | nil => exact ⟨bm, rfl, rfl⟩
  | cons diff diffs ih =>
    obtain ⟨ok, valid⟩ := forall_mem_cons.mp valid
    obtain ⟨here, inside⟩ := forall_mem_cons.mp inside
    obtain ⟨value, set⟩ : ∃ value, replayDiff bm diff = .ok (bm.set diff.1 value) := by
      unfold replayDiff
      cases kind : diff.2 with
      | alloc => exact ⟨false, setBit_ok.mpr ⟨here, rfl⟩⟩
      | dealloc => exact ⟨true, setBit_ok.mpr ⟨here, rfl⟩⟩
      | invalid => exact absurd kind ok
    have length : (bm.set diff.1 value).length = bm.length := length_set
    obtain ⟨bm', returns, same⟩ := ih valid (length ▸ inside)
    refine ⟨bm', ?_, same.trans length⟩
    rw [foldlM_cons, set]
    exact returns

/-- Replaying the log of a diff table applies the table. -/
theorem replayLog_diffBuffers {table : DiffTable} (some : table.isEmpty = false)
    (writable : AllocTable.Writable table.entries) (bm : BitMap) :
    replayLog bm (diffBuffers table.entries []).flatten = table.entries.foldlM replayDiff bm := by
  have stream : AllocTable.DiffStream ([] ++ table.entries) (diffBuffers table.entries []).flatten :=
    diffStream_diffBuffers writable nofun
  have entries : table.entries ≠ [] := by
    intro empty
    unfold SortedMap.isEmpty at some
    rw [empty] at some
    cases some
  unfold replayLog
  rw [checkedSub_of_le (stream.length entries)]
  exact stream.replayFrom (Nat.lt_succ_self _) bm

end BlockAlloc

/-! ### Runs -/

/-- The table in memory and the logs it can be recovered from. -/
structure AllocSystem where
  table : AllocTable
  logs : AllocLogs

/-- What the disk and the tree do with the table. A transaction of the tree is here the calls of its
listener and the commit. -/
inductive AllocOp
  | allocBatch (count : Nat)
  | setDeallocated (nth : Hba)
  | transaction (calls : List BlockCall)
  | doCompaction
  | recover
  deriving DecidableEq, Repr

namespace AllocSystem

variable (codec : BitMapCodec)

def start (nblocks : Nat) : AllocSystem := ⟨.new nblocks, ⟨[], []⟩⟩

variable (s : AllocSystem)

def exec : AllocOp → Res AllocSystem
  | .allocBatch count => do
    let (_, table) ← s.table.allocBatch count
    .ok { s with table }
  | .setDeallocated nth => do
    let table ← s.table.setDeallocated nth
    .ok { s with table }
  | .transaction calls => do
    let table ← BlockAlloc.updateAllocTable (BlockAlloc.diffTable calls) s.table
    .ok { table, logs := BlockAlloc.updateDiffLog (BlockAlloc.diffTable calls) s.logs }
  | .doCompaction => do
    let (table, logs) ← s.table.doCompaction codec s.logs
    .ok { table, logs }
  | .recover => do
    let table ← AllocTable.recover codec s.table.nblocks s.logs
    .ok { s with table }

/-- What the code asks of its callers: a batch is not empty and waits until there are enough free
blocks, and the blocks of a diff table are allocated, as `update_alloc_table` asserts. -/
def Called : AllocOp → Prop
  | .allocBatch count => 0 < count ∧ count ≤ s.table.numFree
  | .transaction calls =>
    ∀ diff ∈ (BlockAlloc.diffTable calls).entries, s.table.bitmap[diff.1]? = some false
  | _ => True

/-- A block is given back outside a transaction only when it is allocated, and the table dirty. -/
def Clean : AllocOp → Prop
  | .setDeallocated nth => s.table.bitmap[nth]? = some false ∧ s.table.isDirty = true
  | _ => True

instance (s : AllocSystem) (op : AllocOp) : Decidable (s.Called op) := by
  cases op <;> unfold Called <;> infer_instance

instance (s : AllocSystem) (op : AllocOp) : Decidable (s.Clean op) := by
  cases op <;> unfold Clean <;> infer_instance

def Step (op : AllocOp) (t : AllocSystem) : Prop := s.Called op ∧ s.exec codec op = .ok t

def CleanStep (op : AllocOp) (t : AllocSystem) : Prop :=
  s.Clean op ∧ s.Step codec op t

/-- The logs replay to `bm`. -/
def Replays (nblocks : Nat) (logs : AllocLogs) (bm : BitMap) : Prop :=
  ∃ base, AllocTable.baseBitmap codec nblocks logs = .ok base ∧
    logs.bal.foldlM AllocTable.replayLog base = .ok bm

structure Consistent (n : Nat) (s : AllocSystem) : Prop where
  nblocks : s.table.nblocks = n
  size : s.table.bitmap.length = n
  counter : s.table.numFree = s.table.bitmap.countOnes
  replays : ∃ bm, Replays codec n s.logs bm ∧ bm.length = n ∧ (s.table.isDirty = false → bm = s.table.bitmap)

namespace Consistent

variable {codec : BitMapCodec} {n : Nat} {s t : AllocSystem}

theorem start (n : Nat) : Consistent codec n (.start n) where
  nblocks := rfl
  size := length_replicate
  counter := count_replicate_self.symm
  replays := ⟨replicate n true, ⟨_, rfl, rfl⟩, length_replicate, fun _ => rfl⟩

theorem recover (pos : 0 < n) (h : Consistent codec n s) :
    ∃ t, AllocTable.recover codec n s.logs = .ok t ∧ t.nblocks = n ∧ t.bitmap.length = n ∧
      t.numFree = t.bitmap.countOnes ∧ Replays codec n s.logs t.bitmap ∧
      (s.table.isDirty = false → t.bitmap = s.table.bitmap) := by
  obtain ⟨bm, ⟨base, load, replay⟩, length, same⟩ := h.replays
  unfold AllocTable.recover
  rw [load, ok_bind, replay, ok_bind, firstOne_zero (length ▸ pos)]
  exact ⟨_, rfl, rfl, length, rfl, ⟨base, load, replay⟩, same⟩

theorem transaction (h : Consistent codec n s) (fits : n ≤ 256 ^ 8) {calls : List BlockCall}
    (called : s.Called (.transaction calls)) (returned : s.exec codec (.transaction calls) = .ok t) :
    Consistent codec n t := by
  obtain ⟨bm, ⟨base, load, replay⟩, length, same⟩ := h.replays
  obtain ⟨table, update, eq⟩ := bind_ok.mp returned
  cases eq
  obtain ⟨⟨bitmap, numDealloc⟩, apply, eq⟩ := bind_ok.mp update
  cases eq
  have valid : ∀ diff ∈ (diffTable calls).entries, diff.2 ≠ .invalid := fun diff => valid_diffTable
  have inside : ∀ diff ∈ (diffTable calls).entries, diff.1 < n := fun diff mem =>
    h.size ▸ (List.getElem?_eq_some_iff.mp (called diff mem)).1
  have writable : AllocTable.Writable (diffTable calls).entries :=
    fun diff mem => ⟨lt_of_lt_of_le (inside diff mem) fits, valid diff mem⟩
  obtain ⟨bitmap', k, apply', replay', count⟩ := applyDiff_run (diffTable calls).sorted valid called
  cases apply.symm.trans apply'
  -- In memory and in the log the same happens; if the table is dirty, to different bitmaps.
  obtain ⟨replayed, run, size⟩ := replayDiff_run valid (h.size ▸ inside)
  cases run.symm.trans replay'
  obtain ⟨bm', run', size'⟩ := replayDiff_run valid (length ▸ inside)
  refine ⟨h.nblocks, size.trans h.size, ?_, bm', ?_, size'.trans length, fun clean => ?_⟩
  · rw [count, h.counter, zero_add]
  · unfold updateDiffLog
    split
    · next empty =>
      rw [isEmpty_iff.mp empty] at run'
      cases run'
      exact ⟨base, load, replay⟩
    · next some =>
      refine ⟨base, load, ?_⟩
      rw [foldlM_append, replay, ok_bind, foldlM_cons,
        replayLog_diffBuffers (Bool.eq_false_iff.mpr some) writable, run']
      rfl
  · rw [same clean] at run'
    exact Except.ok.inj (run'.symm.trans replay')

theorem setDeallocated (h : Consistent codec n s) {nth : Hba} (clean : s.Clean (.setDeallocated nth))
    (returned : s.exec codec (.setDeallocated nth) = .ok t) : Consistent codec n t := by
  obtain ⟨zero, dirty⟩ := clean
  obtain ⟨table, free, eq⟩ := bind_ok.mp returned
  cases eq
  obtain ⟨bitmap, set, eq⟩ := bind_ok.mp free
  cases eq
  obtain ⟨inside, rfl⟩ := setBit_ok.mp set
  obtain ⟨bm, replays, length, _⟩ := h.replays
  refine ⟨h.nblocks, length_set.trans h.size, ?_, bm, replays, length, fun clean => ?_⟩
  · rw [countOnes_set_true zero, h.counter]
  · cases dirty.symm.trans clean

theorem doCompaction (lawful : codec.Lawful) (h : Consistent codec n s)
    (returned : s.exec codec .doCompaction = .ok t) :
    Consistent codec n t ∧ t.table.isDirty = false := by
  obtain ⟨⟨table, logs⟩, persist, eq⟩ := bind_ok.mp returned
  cases eq
  unfold doCompaction at persist
  split at persist
  · obtain ⟨_, eq⟩ := guard_ok.mp persist
    cases eq
    obtain ⟨zeros, padded⟩ := padBlock_eq (codec.toSlice s.table.bitmap)
    refine ⟨⟨h.nblocks, h.size, h.counter, s.table.bitmap, ⟨s.table.bitmap, ?_, rfl⟩, h.size,
      fun _ => rfl⟩, rfl⟩
    unfold baseBitmap
    rw [getLast?_singleton, padded]
    dsimp only
    rw [lawful]
  · next clean =>
    cases persist
    exact ⟨h, Bool.eq_false_iff.mpr clean⟩

theorem step (lawful : codec.Lawful) (pos : 0 < n) (fits : n ≤ 256 ^ 8) (h : Consistent codec n s)
    {op : AllocOp} (step : s.CleanStep codec op t) : Consistent codec n t := by
  obtain ⟨clean, called, returned⟩ := step
  cases op with
  | allocBatch count =>
    obtain ⟨hbas, table, take, _, _, _, size, nblocks, counter, dirty⟩ :=
      allocBatch_run called.1 (h.size.trans h.nblocks.symm) h.counter called.2
    obtain ⟨taken, take', eq⟩ := bind_ok.mp returned
    cases take.symm.trans take'
    cases eq
    obtain ⟨bm, replays, length, _⟩ := h.replays
    refine ⟨nblocks.trans h.nblocks, size.trans h.size, counter, bm, replays, length, fun clean => ?_⟩
    cases dirty.symm.trans clean
  | setDeallocated nth => exact h.setDeallocated clean returned
  | transaction calls => exact h.transaction fits called returned
  | doCompaction => exact (h.doCompaction lawful returned).1
  | recover =>
    obtain ⟨table, recovered, nblocks, size, counter, replays, _⟩ := h.recover pos
    obtain ⟨table', recovered', eq⟩ := bind_ok.mp returned
    rw [h.nblocks] at recovered'
    cases recovered.symm.trans recovered'
    cases eq
    exact ⟨nblocks, size, counter, table.bitmap, replays, size, fun _ => rfl⟩

end Consistent

/-- In every run in which blocks are given back outside transactions only as `Clean` says, the counter
counts the free bits, a batch that need not wait gets so many distinct free blocks, and recovery after a
compaction that succeeds gives the bitmap and the counter of the table in memory. -/
theorem recovered_of_clean (lawful : codec.Lawful) (nblocks : UInt64) (pos : 0 < nblocks.toNat)
    {s : AllocSystem} {ops : List AllocOp}
    (run : Labelled.Run (CleanStep codec) (start nblocks.toNat) ops s) :
    s.table.numFree = s.table.bitmap.countOnes ∧
    (∀ count, 0 < count → count ≤ s.table.numFree → ∃ hbas t, s.table.allocBatch count = .ok (hbas, t) ∧
      hbas.length = count ∧ hbas.Nodup ∧ ∀ hba ∈ hbas, s.table.bitmap[hba]? = some true) ∧
    ∀ t, s.exec codec .doCompaction = .ok t → ∃ r, AllocTable.recover codec nblocks.toNat t.logs = .ok r ∧
      r.bitmap = t.table.bitmap ∧ r.numFree = t.table.numFree := by
  have fits : nblocks.toNat ≤ 256 ^ 8 := le_of_lt nblocks.toNat_lt
  have keep : ∀ s op t, Consistent codec nblocks.toNat s → CleanStep codec s op t →
      Consistent codec nblocks.toNat t := fun _ _ _ h => h.step lawful pos fits
  have h := run.invariant keep (.start _)
  refine ⟨h.counter, fun count some enough => ?_, fun t returned => ?_⟩
  · obtain ⟨hbas, t, take, length, nodup, free, _⟩ :=
      allocBatch_run some (h.size.trans h.nblocks.symm) h.counter enough
    exact ⟨hbas, t, take, length, nodup, free⟩
  · obtain ⟨h', clean⟩ := h.doCompaction lawful returned
    obtain ⟨r, recovered, _, _, counter, _, same⟩ := h'.recover pos
    refine ⟨r, recovered, same clean, ?_⟩
    rw [counter, same clean, h'.counter]

/-- A bitmap as one byte for each bit, none of them zero. -/
def byteCodec : BitMapCodec where
  toSlice := fun bm => bm.map fun bit => if bit then 1 else 2
  fromBytes := fun bytes => some ((bytes.takeWhile (· ≠ 0)).map (· = 1))

theorem byteCodec_lawful : byteCodec.Lawful := by
  intro bm n
  unfold byteCodec
  refine congrArg some ?_
  induction bm with
  | nil => cases n <;> rfl
  | cons bit bm ih => cases bit <;> simpa [takeWhile_cons] using ih

/-- Two blocks are taken, one of them is given back, a compaction and two transactions follow; after recovery
one more is taken. -/
def taken : List AllocOp :=
  [.allocBatch 2, .setDeallocated 0, .doCompaction, .transaction [.allocBlock 1], .allocBatch 1,
    .transaction [.deallocBlock 1], .recover, .allocBatch 1]

def execCalled (s : AllocSystem) (op : AllocOp) : Res AllocSystem :=
  if s.Called op then s.exec byteCodec op else panicWith "not called"

theorem step_of_execCalled {s t : AllocSystem} {op : AllocOp} (h : s.execCalled op = .ok t) :
    s.Step byteCodec op t := by
  obtain ⟨called, h⟩ := ite_ok.mp h
  exact ⟨called, h⟩

def execClean (s : AllocSystem) (op : AllocOp) : Res AllocSystem :=
  if s.Clean op then s.execCalled op else panicWith "not clean"

theorem recovered_of_clean_taken :
    ∃ s t r, Labelled.Run (CleanStep byteCodec) (start 3) taken s ∧ s.exec byteCodec .doCompaction = .ok t ∧
      AllocTable.recover byteCodec 3 t.logs = .ok r ∧ r.bitmap = [false, true, true] ∧ r.numFree = 2 := by
  obtain ⟨⟨s, t⟩, returns, seen⟩ := exists_ok_of_map
    (x := do let s ← taken.foldlM execClean (start 3); let t ← s.exec byteCodec .doCompaction; pure (s, t))
    (f := fun x => (x.2.table.bitmap, x.2.table.numFree)) (b := ([false, true, true], 2)) (by decide +kernel)
  obtain ⟨_, returns, compacts⟩ := bind_ok.mp returns
  obtain ⟨_, compacts, eq⟩ := bind_ok.mp compacts
  cases eq
  have run : Labelled.Run (CleanStep byteCodec) (start 3) taken s := by
    refine .of_foldlM (fun op _ s t h => ?_) returns
    obtain ⟨clean, h⟩ := ite_ok.mp h
    exact ⟨clean, step_of_execCalled h⟩
  obtain ⟨r, recovered, bitmap, counter⟩ :=
    (recovered_of_clean byteCodec byteCodec_lawful 3 (by decide) run).2.2 t compacts
  obtain ⟨seenBitmap, seenCounter⟩ := Prod.mk.inj seen
  exact ⟨s, t, r, run, compacts, recovered, bitmap.trans seenBitmap, counter.trans seenCounter⟩

/-- Block 0 is replaced by block 1 and given back, and the disk is synced; when it is opened again, the
replayed log drops the record of block 0 once more. -/
def reopened : List AllocOp :=
  [.allocBatch 1, .allocBatch 1, .setDeallocated 0, .doCompaction, .recover, .setDeallocated 0]

/-- The counter then has one block more than are free, and asking for that many blocks panics. -/
theorem replayed_drop : ∃ s, Labelled.Run (Step byteCodec) (start 2) reopened s ∧ s.table.numFree = 2 ∧
      s.table.bitmap.countOnes = 1 ∧ s.Called (.allocBatch 2) ∧
      s.table.allocBatch 2 = panicWith "called `Option::unwrap()` on a `None` value" := by
  obtain ⟨s, returns, facts⟩ := exists_ok_of_map (x := reopened.foldlM execCalled (start 2))
    (f := fun s => (s.table.numFree, s.table.bitmap.countOnes, decide (s.Called (.allocBatch 2)),
      decide (s.table.allocBatch 2 = panicWith "called `Option::unwrap()` on a `None` value")))
    (b := (2, 1, true, true)) (by decide +kernel)
  obtain ⟨counter, facts⟩ := Prod.mk.inj facts
  obtain ⟨free, facts⟩ := Prod.mk.inj facts
  obtain ⟨called, panics⟩ := Prod.mk.inj facts
  refine ⟨s, ?_, counter, free, of_decide_eq_true called, of_decide_eq_true panics⟩
  refine .of_foldlM (fun op _ s t h => ?_) returns
  exact step_of_execCalled h

end AllocSystem

end OmegaOsx.MlsDisk
