import OmegaOsx.MlsDisk.SSTableBuild

/-!
# Loading a table from its log

The footer is the last part of the log: the index entries, padding, and the metadata in the last
bytes. `Loaded` is what a table and its log have in common; `build_run` and `fromLog_run` establish it
for the table that is built and for the one loaded from its log.

The metadata counts blocks in 16 bits. The index of a larger table is cut off on loading.
-/

namespace OmegaOsx.MlsDisk

open SSTable List LittleEndian Nat TxLog FooterMeta Pieces

theorem bidSize_eq : bidSize = 8 := by decide +kernel

theorem blockSize_eq : blockSize = 4096 := by decide +kernel

theorem footerMetaSize_eq : footerMetaSize = 24 := by decide +kernel

theorem recordBlockNblocks_eq : recordBlockNblocks = 32 := by decide +kernel

namespace FooterMeta

theorem length_asBytes (m : FooterMeta) : m.asBytes.length = footerMetaSize := by
  rw [footerMetaSize_eq]
  simp only [asBytes, length_append, length_toBytes, length_replicate]

theorem fromBytes_asBytes (m : FooterMeta) : fromBytes m.asBytes = m := by
  -- each field is cut out of the bytes at its own offset
  simp [fromBytes, asBytes, drop_append, ofBytes_toBytes, take_of_length_le, drop_eq_nil_of_le]

end FooterMeta

variable {κ K V : Type} [LinearOrder K] (env : SstEnv κ K V)

/-! ## The footer -/

theorem SstEnv.indexEntrySize_eq : env.indexEntrySize = 24 := by
  rw [SstEnv.indexEntrySize, env.kSize_eq, bidSize_eq]

theorem length_indexEntryBytes (entry : IndexEntry K) : (indexEntryBytes env entry).length = env.indexEntrySize := by
  rw [indexEntryBytes, length_append, length_append, length_key, length_key, length_toBytes, SstEnv.indexEntrySize]
  omega

/-- The number of blocks the footer of `n` index entries takes. -/
def footerNblocks (n : Nat) : Nat := (n * env.indexEntrySize + footerMetaSize + blockSize - 1) / blockSize

theorem footerNblocks_bounds (n : Nat) :
    n * 24 + 24 ≤ footerNblocks env n * blockSize ∧ footerNblocks env n * blockSize < n * 24 + 24 + 4096 := by
  unfold footerNblocks
  rw [env.indexEntrySize_eq, footerMetaSize_eq, blockSize_eq]
  omega

def footerMetaOf (n totalRecords : Nat) (syncId : UInt64) : FooterMeta where
  numIndex := .ofNat n
  indexNblocks := .ofNat (footerNblocks env n)
  totalRecords := .ofNat totalRecords
  recordBlockSize := .ofNat recordBlockSize
  syncId

/-- Index entries, padding, metadata. -/
theorem buildFooter_run (index : List (IndexEntry K)) (totalRecords : Nat) (syncId : UInt64)
    (s : TableState κ K V) : ∃ pad footer, footer = index.flatMap (indexEntryBytes env) ++ (pad ++
        (footerMetaOf env index.length totalRecords syncId).asBytes) ∧
      footer.length = footerNblocks env index.length * blockSize ∧
      (buildFooter env index totalRecords syncId).run s =
        .ok ⟨footerMetaOf env index.length totalRecords syncId, index⟩ { s with log := s.log ++ footer } := by
  obtain ⟨room, -⟩ := footerNblocks_bounds env index.length
  have entries : (index.flatMap (indexEntryBytes env)).length = index.length * 24 := by
    rw [length_flatMap_const (length_indexEntryBytes env), env.indexEntrySize_eq]
  have len : alignUp (index.length * env.indexEntrySize + footerMetaSize) blockSize =
      footerNblocks env index.length * blockSize := rfl
  have blocks : footerNblocks env index.length * blockSize / blockSize = footerNblocks env index.length :=
    Nat.mul_div_cancel _ (by rw [blockSize_eq]; decide)
  unfold buildFooter
  dsimp only
  rw [len, blocks, resize_of_le (by omega)]
  rw [take_append, take_of_length_le (by rw [footerMetaSize_eq]; omega), append_assoc]
  refine ⟨_, _, rfl, ?_, rfl⟩
  rw [length_append, length_append, length_take, length_replicate, length_asBytes, footerMetaSize_eq]
  omega

/-! ## Reading the log -/

variable {s : TableState κ K V} {pos n : Nat}

omit [LinearOrder K] in
theorem read_middle {pre mid post : Bytes} (log : s.log = pre ++ (mid ++ post))
    (at_pre : pre.length = pos * blockSize) (size : mid.length = n * blockSize) :
    (read pos n).run s = .ok mid s := by
  have inside : (pos + n) * blockSize ≤ s.log.length := by
    rw [log, length_append, length_append, at_pre, size, add_mul, ← add_assoc]
    exact le_add_right _ _
  unfold TxLog.read
  rw [run_get_bind, if_pos inside, log, drop_left' at_pre, take_left' size]
  rfl

omit [LinearOrder K] in
/-- What ends the log is found at the end of its last block. -/
theorem read_last {front last : Bytes} (log : s.log = front ++ last)
    (size : s.log.length = (n + 1) * blockSize) (small : last.length ≤ blockSize) :
    ∃ rbuf, (read n 1).run s = .ok rbuf s ∧ slice rbuf (blockSize - last.length) blockSize = .ok last := by
  have length : front.length + last.length = n * blockSize + blockSize := by
    rw [← length_append, ← log, size, succ_mul]
  have tail : (front.drop (n * blockSize)).length = blockSize - last.length := by
    rw [length_drop]
    omega
  refine ⟨front.drop (n * blockSize) ++ last, ?_, ?_⟩
  · have split : s.log = front.take (n * blockSize) ++ ((front.drop (n * blockSize) ++ last) ++ []) := by
      rw [append_nil, ← append_assoc, take_append_drop, log]
    exact read_middle split (length_take_of_le (by omega)) (by rw [length_append]; omega)
  · have whole : front.drop (n * blockSize) ++ last = front.drop (n * blockSize) ++ (last ++ []) := by
      rw [append_nil]
    rw [whole]
    exact slice_middle tail.symm (by omega)

omit [LinearOrder K] in
theorem read_blockAt {block : Bytes} (h : blockAt s.log pos = some block) :
    (read pos recordBlockNblocks).run s = .ok block s := by
  unfold blockAt at h
  unfold TxLog.read
  rw [run_get_bind]
  split at h
  next inside =>
    rw [if_pos inside, ← Option.some.inj h]
    rfl
  next => cases h

/-- A table whose index names the blocks of `groups`, all of them in the log. -/
structure Loaded (sst : SSTable K) (s : TableState κ K V) (groups : List (Group K V)) : Prop where
  index : sst.index = groups.mapIdx Group.entry
  count : sst.footerMeta.numIndex.toNat = groups.length
  log : ∃ more, s.log = groups.flatMap (Group.block env) ++ more
  cached : CacheSound env s
  fits : ∀ g ∈ groups, counted env g.1 ≤ recordBlockSize

/-! ## The index -/

/-- The parts of an index entry. -/
theorem slice_indexEntryBytes (entry : IndexEntry K) :
    slice (indexEntryBytes env entry) 0 bidSize = .ok (toBytes bidSize entry.pos) ∧
    slice (indexEntryBytes env entry) bidSize (bidSize + env.kSize) = .ok (env.key.pod.asBytes entry.first) ∧
    slice (indexEntryBytes env entry) (env.indexEntrySize - env.kSize) env.indexEntrySize =
      .ok (env.key.pod.asBytes entry.last) := by
  have pos := length_toBytes bidSize entry.pos
  have first := length_key env entry.first
  have last := length_key env entry.last
  have size : env.indexEntrySize = bidSize + 2 * env.kSize := rfl
  unfold indexEntryBytes
  refine ⟨?_, ?_, ?_⟩
  · rw [append_assoc]
    show slice ([] ++ (_ ++ _)) 0 bidSize = _
    exact slice_middle rfl (by rw [pos, zero_add])
  · rw [append_assoc]
    exact slice_middle pos.symm (by rw [first])
  · have whole : toBytes bidSize entry.pos ++ env.key.pod.asBytes entry.first ++
        env.key.pod.asBytes entry.last = (toBytes bidSize entry.pos ++
          env.key.pod.asBytes entry.first) ++ (env.key.pod.asBytes entry.last ++ []) := by
      rw [append_nil]
    rw [whole]
    exact slice_middle (by rw [length_append]; omega) (by omega)

variable {groups : List (Group K V)}

theorem loadIndex_run {more : Bytes} (rest : Bytes) (log : s.log = groups.flatMap (Group.block env) ++ more)
    (cached : CacheSound env s) {i : Nat} (few : i + n ≤ groups.length) (small : i + n ≤ 65536) :
    ∃ s', (loadIndex env ((groups.mapIdx Group.entry).flatMap (indexEntryBytes env) ++ rest) i n).run s =
        .ok (((groups.mapIdx Group.entry).drop i).take n) s' ∧
      s'.log = s.log ∧ CacheSound env s' := by
  induction n generalizing i s with
  | zero => exact ⟨s, rfl, rfl, cached⟩
  | succ n ih =>
    obtain ⟨g, at_i⟩ : ∃ g, groups[i]? = some g := ⟨_, getElem?_eq_getElem (by omega)⟩
    have entry : (groups.mapIdx Group.entry)[i]? = some (Group.entry i g) := by
      rw [getElem?_mapIdx, at_i]
      rfl
    have cons : ((groups.mapIdx Group.entry).drop i).take (n + 1) =
        Group.entry i g :: ((groups.mapIdx Group.entry).drop (i + 1)).take n := by
      obtain ⟨inside, eq⟩ := List.getElem?_eq_some_iff.mp entry
      rw [drop_eq_getElem_cons inside, take_succ_cons, eq]
    have buf : slice ((groups.mapIdx Group.entry).flatMap (indexEntryBytes env) ++ rest)
        (i * env.indexEntrySize) ((i + 1) * env.indexEntrySize) =
        .ok (indexEntryBytes env (Group.entry i g)) := by
      have total := length_flatMap_const (length_indexEntryBytes env) (groups.mapIdx Group.entry)
      have bound : (i + 1) * env.indexEntrySize ≤
          ((groups.mapIdx Group.entry).flatMap (indexEntryBytes env) ++ rest).length := by
        rw [length_append, total, length_mapIdx]
        exact (Nat.mul_le_mul_right _ (by omega)).trans (le_add_right _ _)
      rw [slice_inside (mul_le_mul_right _ (le_succ i)) bound, succ_mul, Nat.add_sub_cancel_left]
      exact congrArg Except.ok (piece_flatMap (length_indexEntryBytes env) entry rest)
    obtain ⟨pos, first, last⟩ := slice_indexEntryBytes env (Group.entry i g)
    have posBytes : ofBytes (toBytes bidSize (Group.entry i g).pos) = (Group.entry i g).pos := by
      refine ofBytes_toBytes_of_lt ?_
      rw [Group.entry_pos, bidSize_eq, recordBlockNblocks_eq]
      omega
    have block : blockAt s.log (Group.entry i g).pos = some (Group.block env g) := by
      rw [log]
      exact blockAt_flatMap env at_i more
    let s1 := { s with cache := env.cache.put s.cache (Group.entry i g).pos (Group.block env g) }
    obtain ⟨s', rest', log', cached'⟩ := ih (s := s1) (i := i + 1) log (cached.put block) (by omega) (by omega)
    refine ⟨s', ?_, log', cached'⟩
    rw [loadIndex, buf, run_liftRes_bind, pos, run_liftRes_bind]
    rw [first, run_liftRes_bind, last, run_liftRes_bind, posBytes, run_bind (read_blockAt block),
      run_modify_bind, run_bind rest',
      env.key.pod.fromBytes_asBytes, env.key.pod.fromBytes_asBytes, cons]
    rfl

/-! ## Building and loading -/

/-- The log of a table: its blocks and its footer. -/
structure Written (groups : List (Group K V)) (totalRecords : Nat) (syncId : UInt64)
    (s : TableState κ K V) : Prop where
  log : ∃ pad footer,
    footer = (groups.mapIdx Group.entry).flatMap (indexEntryBytes env) ++ (pad ++
      (footerMetaOf env groups.length totalRecords syncId).asBytes) ∧
    footer.length = footerNblocks env groups.length * blockSize ∧
    s.log = groups.flatMap (Group.block env) ++ footer

variable {env} {records : List (K × ValueEx V)}

theorem build_run (packs : Packs env records) (listening : Bool) (syncId : UInt64) :
    ∃ totalRecords sst s, (build env listening records syncId).run (.created env) = .ok sst s ∧
      Written env (pack env records) totalRecords syncId s ∧ CacheSound env s ∧
      sst.index = (pack env records).mapIdx Group.entry ∧
      sst.footerMeta = footerMetaOf env (pack env records).length totalRecords syncId := by
  obtain ⟨total, s, blocks, log, cached⟩ := buildRecordBlocks_run listening packs
  obtain ⟨pad, footer, eq, length, written⟩ := buildFooter_run env
    ((pack env records).mapIdx Group.entry) total syncId s
  rw [length_mapIdx] at eq length written
  have run : (build env listening records syncId).run (.created env) =
      .ok ⟨footerMetaOf env (pack env records).length total syncId,
        (pack env records).mapIdx Group.entry⟩ { s with log := s.log ++ footer } := by
    unfold build
    exact (run_bind blocks).trans written
  refine ⟨total, _, _, run, ⟨pad, footer, eq, length, ?_⟩, ?_, rfl, rfl⟩
  · rw [log]
  · intro pos block held
    exact blockAt_append (cached pos block held) footer

theorem build_overflow (beyond : ¬ Packs env records) (listening : Bool) (syncId : UInt64) :
    ∃ msg s, (build env listening records syncId).run (.created env) = .error (.panic msg) s := by
  obtain ⟨msg, s, blocks⟩ := buildRecordBlocks_overflow listening beyond
  refine ⟨msg, s, ?_⟩
  unfold build
  rw [run_modify_bind]
  exact run_bind_error blocks

variable {totalRecords : Nat} {syncId : UInt64}

theorem Written.nblocks (written : Written env groups totalRecords syncId s) :
    s.log.length / blockSize = recordBlockNblocks * groups.length + footerNblocks env groups.length := by
  obtain ⟨pad, footer, -, length, log⟩ := written
  rw [log, length_append, flatMap_block_end, length, ← add_mul]
  exact Nat.mul_div_cancel _ (by rw [blockSize_eq]; decide)

/-- The metadata stands at the end of the last block. -/
theorem Written.readMeta (written : Written env groups totalRecords syncId s)
    (blocks : s.log.length / blockSize = n + 1) :
    ∃ rbuf, (read n 1).run s = .ok rbuf s ∧ slice rbuf (blockSize - footerMetaSize) blockSize =
      .ok (footerMetaOf env groups.length totalRecords syncId).asBytes := by
  have nblocks := written.nblocks
  obtain ⟨pad, footer, eq, length, log⟩ := written
  rw [← (footerMetaOf env groups.length totalRecords syncId).length_asBytes]
  have split : s.log = (groups.flatMap (Group.block env) ++
      ((groups.mapIdx Group.entry).flatMap (indexEntryBytes env) ++ pad)) ++
        (footerMetaOf env groups.length totalRecords syncId).asBytes := by
    rw [log, eq]
    simp only [append_assoc]
  refine read_last split ?_ ?_
  · rw [← blocks, nblocks, log, length_append, flatMap_block_end, length, add_mul]
  · rw [length_asBytes, footerMetaSize_eq, blockSize_eq]
    decide

theorem mapIdx_take {α β : Type} (f : Nat → α → β) (n : Nat) (l : List α) :
    (l.take n).mapIdx f = (l.mapIdx f).take n := by
  refine ext_getElem? fun i => ?_
  simp only [getElem?_mapIdx, getElem?_take]
  split
  · rfl
  · rfl

/-- Loading finds as many blocks as 16 bits can count. -/
theorem fromLog_run (written : Written env groups totalRecords syncId s)
    (fits : ∀ g ∈ groups, counted env g.1 ≤ recordBlockSize) (few : footerNblocks env groups.length < 65536) :
    ∃ sst s', (fromLog env).run s = .ok sst s' ∧
      Loaded env sst s' (groups.take (groups.length % 65536)) ∧ sst.footerMeta.syncId = syncId := by
  obtain ⟨room, -⟩ := footerNblocks_bounds env groups.length
  have some : 0 < footerNblocks env groups.length := by
    rw [blockSize_eq] at room
    omega
  obtain ⟨n, blocks⟩ : ∃ n, s.log.length / blockSize = n + 1 :=
    exists_eq_succ_of_ne_zero (by rw [written.nblocks]; omega)
  obtain ⟨rbuf, last, meta'⟩ := written.readMeta blocks
  have nblocks := written.nblocks
  obtain ⟨pad, footer, eq, length, log⟩ := written
  have read : (read (recordBlockNblocks * groups.length) (footerNblocks env groups.length)).run s = .ok footer s :=
    read_middle (by rw [log, append_nil]) (flatMap_block_end env groups) length
  have index16 : (footerMetaOf env groups.length totalRecords syncId).indexNblocks.toNat =
      footerNblocks env groups.length := by
    show (UInt16.ofNat _).toNat = _
    rw [UInt16.toNat_ofNat']
    exact mod_eq_of_lt few
  have num16 : (footerMetaOf env groups.length totalRecords syncId).numIndex.toNat =
      groups.length % 65536 := UInt16.toNat_ofNat'
  have few' : groups.length % 65536 ≤ groups.length := mod_le _ _
  obtain ⟨s', entries, log', cached⟩ := loadIndex_run env (s := { s with cache := env.newCache })
    (pad ++ (footerMetaOf env groups.length totalRecords syncId).asBytes) log
    (fun _ _ held => absurd held env.newCache_holds) (i := 0) (n := groups.length % 65536)
    (by omega) (by omega)
  rw [← eq] at entries
  have run : (fromLog env).run s = .ok ⟨footerMetaOf env groups.length totalRecords syncId,
        ((groups.mapIdx Group.entry).drop 0).take (groups.length % 65536)⟩ s' := by
    unfold fromLog
    rw [run_bind (show TxLog.nblocks.run s = .ok _ s from rfl), blocks,
      show checkedSub (n + 1) 1 = .ok n from checkedSub_of_le (succ_pos n), run_liftRes_bind,
      run_bind last, meta',
      run_liftRes_bind, fromBytes_asBytes]
    dsimp only
    rw [index16, if_neg (ne_of_gt some), ← blocks, nblocks, checkedSub_of_le (le_add_left _ _),
      run_liftRes_bind, Nat.add_sub_cancel, run_bind read, run_modify_bind, num16, run_bind entries]
    rfl
  refine ⟨_, _, run, ⟨?_, ?_, ?_, cached, ?_⟩, rfl⟩
  · exact (mapIdx_take _ _ _).symm
  · rw [num16, length_take_of_le few']
  · refine ⟨(groups.drop (groups.length % 65536)).flatMap (Group.block env) ++ footer, ?_⟩
    rw [log', ← append_assoc, ← flatMap_append, take_append_drop, log]
  · exact fun g mem => fits g (mem_of_mem_take mem)

end OmegaOsx.MlsDisk
