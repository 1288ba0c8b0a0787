import OmegaOsx.MlsDisk.CryptoLog
import OmegaOsx.Lib.Pieces

/-!
# What a Merkle tree stores

The block log is the image of a history of cells: data blocks and tree nodes, each with the key it
was sealed with. `EntryCovers hist h` says that an entry at height `h` leads to given data blocks,
and `NodeCovers` says it of a node. The node cache holds nothing but nodes of the history.
-/

namespace OmegaOsx.MlsDisk

open Pieces MhtNode List Nat MhtStorage SearchCtx

variable {κ Key Iv Mac : Type} (env : MhtEnv κ Key Iv Mac)

theorem mhtNbranches_gt_one : 1 < mhtNbranches := by unfold mhtNbranches; decide

theorem mhtNbranches_pos : 0 < mhtNbranches := lt_of_succ_lt mhtNbranches_gt_one

theorem mhtNbranches_pow_pos (h : Nat) : 0 < mhtNbranches ^ h := Nat.pow_pos mhtNbranches_pos

/-! ## Histories -/

/-- A block of the log, with what was sealed in it. -/
inductive Cell (Key Iv Mac : Type)
  | raw (cipher : Bytes)
  | data (block : Bytes) (key : Key)
  | node (node : MhtNode Key Mac) (key : Key) (iv : Iv)

def sealData (block : Bytes) (key : Key) : Bytes × Mac :=
  env.crypto.encrypt block key (MhtStorage.zeroIv env) none

def sealNode (node : MhtNode Key Mac) (key : Key) (iv : Iv) : Bytes × Mac :=
  env.crypto.encrypt (env.asBytes node) key iv none

def Cell.cipher : Cell Key Iv Mac → Bytes
  | .raw cipher => cipher
  | .data block key => (sealData env block key).1
  | .node n key iv => (sealNode env n key iv).1

abbrev History (Key Iv Mac : Type) := List (Cell Key Iv Mac)

/-- The storage holds the history. -/
structure StoredHistory (hist : History Key Iv Mac) (s : MhtStorage κ) : Prop where
  log : s.blockLog = hist.map (Cell.cipher env)
  cached : ∀ p v, env.cache.holds s.nodeCache p v → ∃ key iv, hist[p]? = some (.node v key iv)

/-! ## Coverage -/

/-- `child` is coverage by an entry of height `h`; the node has height `h + 1`. -/
def NodeCovers (child : MhtNodeEntry Key Mac → List Bytes → Prop) (h : Nat) (node : MhtNode Key Mac)
    (ds : List Bytes) : Prop :=
  ∃ es, node = MhtNode.ofEntries env (h + 1) ds.length es ∧
    Covers child (mhtNbranches ^ h) es ds ∧ es.length ≤ mhtNbranches ∧ 0 < ds.length

def EntryCovers (hist : History Key Iv Mac) : Nat → MhtNodeEntry Key Mac → List Bytes → Prop
  | 0, e, ds => ∃ block, ds = [block] ∧ hist[e.pos]? = some (.data block e.key) ∧
      e.mac = (sealData env block e.key).2
  | h + 1, e, ds => ∃ node, hist[e.pos]? = some (.node node e.key (MhtStorage.zeroIv env)) ∧
      e.mac = (sealNode env node e.key (MhtStorage.zeroIv env)).2 ∧
      NodeCovers env (EntryCovers hist h) h node ds

variable {env} {hist : History Key Iv Mac} {s s' : MhtStorage κ}
  {ds : List Bytes} {child : MhtNodeEntry Key Mac → List Bytes → Prop} {h : Nat}

theorem NodeCovers.mono {child' : MhtNodeEntry Key Mac → List Bytes → Prop} {node : MhtNode Key Mac}
    (covers : NodeCovers env child h node ds) (weaken : ∀ e d, child e d → child' e d) :
    NodeCovers env child' h node ds := by
  obtain ⟨es, shape, covers, few, some⟩ := covers
  exact ⟨es, shape, covers.mono weaken, few, some⟩

/-- What is covered stays covered when the log grows. -/
theorem EntryCovers.append {e : MhtNodeEntry Key Mac} (covers : EntryCovers env hist h e ds)
    (more : History Key Iv Mac) :
    EntryCovers env (hist ++ more) h e ds := by
  have kept : ∀ {p : Nat} {cell : Cell Key Iv Mac}, hist[p]? = some cell → (hist ++ more)[p]? = some cell := by
    intro p cell at_p
    rw [getElem?_append_left (List.getElem?_eq_some_iff.mp at_p).1, at_p]
  induction h generalizing e ds with
  | zero =>
    obtain ⟨block, one, at_p, mac⟩ := covers
    exact ⟨block, one, kept at_p, mac⟩
  | succ h ih =>
    obtain ⟨node, at_p, mac, inner⟩ := covers
    exact ⟨node, kept at_p, mac, inner.mono fun _ _ => ih⟩

section Shape

variable {n : Nat} {es : List (MhtNodeEntry Key Mac)}

theorem MhtNode.ofEntries_entries (few : es.length ≤ mhtNbranches) :
    (ofEntries env h n es).entries = es ++ replicate (mhtNbranches - es.length) env.uninit := by
  simp only [ofEntries, take_append, take_of_length_le few, take_replicate]
  rw [min_eq_left (by omega)]

theorem MhtNode.ofEntries_numValidEntries (few : es.length ≤ mhtNbranches) :
    (ofEntries env h n es).numValidEntries = es.length := by
  have small : mhtNbranches < 2 ^ 16 := by unfold mhtNbranches; decide
  exact mod_eq_of_lt (by omega)

end Shape

section Bounds

variable {node : MhtNode Key Mac}

section

variable (covers : NodeCovers env child h node ds)

include covers

theorem NodeCovers.length_le : ds.length ≤ mhtNbranches ^ (h + 1) := by
  obtain ⟨es, -, covers, few, -⟩ := covers
  have := (covers.count mhtNbranches).not.mp (not_lt.mpr few)
  rw [pow_succ, mul_comm]
  exact not_lt.mp this

theorem NodeCovers.height_eq : node.height = h + 1 := by
  obtain ⟨es, rfl, -⟩ := covers
  rfl

theorem NodeCovers.numDataNodes_eq (small : ds.length < 2 ^ 32) : node.numDataNodes = ds.length := by
  obtain ⟨es, rfl, -⟩ := covers
  exact mod_eq_of_lt small

end

end Bounds

/-! ## Reading -/

namespace SearchCtx

variable {σ : Type} {s : σ}

theorem copyDataNodes_append (ds more : List Bytes) (ctx : SearchCtx) : copyDataNodes (ds ++ more) ctx =
      (copyDataNodes ds ctx >>= copyDataNodes more : EStateM Fault σ SearchCtx) := by
  induction ds generalizing ctx with
  | nil => rfl
  | cons block ds ih => simp only [cons_append, copyDataNodes, ih, bind_assoc]

/-- Blocks are copied from the offset on, as long as the buffer has room. -/
theorem copyDataNodes_run {ds : List Bytes} {ctx : SearchCtx}
    (inside : ctx.offset ≤ ctx.dataBuf.length) : (copyDataNodes ds ctx).run s =
      if ctx.offset + ds.length ≤ ctx.dataBuf.length then .ok { ctx with
        dataBuf := ctx.dataBuf.take ctx.offset ++ ds ++ ctx.dataBuf.drop (ctx.offset + ds.length)
        offset := ctx.offset + ds.length } s
      else .error (.panic "range end index out of range for slice") s := by
  induction ds generalizing ctx with
  | nil =>
    rw [length_nil, add_zero, append_nil, take_append_drop, if_pos inside]
    rfl
  | cons block ds ih =>
    rw [copyDataNodes, fill, length_cons]
    split
    next lt =>
      have split : (ctx.dataBuf.set ctx.offset block).take (ctx.offset + 1) =
          ctx.dataBuf.take ctx.offset ++ [block] := by
        rw [take_add_one, take_set_of_le le_rfl, getElem?_set_self lt]
        rfl
      have after : ctx.offset < ctx.offset + (ds.length + 1) := by omega
      refine (ih (by rwa [length_set])).trans ?_
      simp only [split, append_assoc, singleton_append, add_assoc, add_comm 1, length_set, drop_set_of_lt after]
    next ge =>
      rw [if_neg (by omega)]
      rfl

end SearchCtx

variable {es : List (MhtNodeEntry Key Mac)}

section

variable (stored : StoredHistory env hist s)

include stored

theorem StoredHistory.readBlock {pos : Nat} {cell : Cell Key Iv Mac} (at_p : hist[pos]? = some cell) :
    (readBlock pos).run s = .ok (cell.cipher env) s := by
  have : s.blockLog[pos]? = some (cell.cipher env) := by simp [stored.log, at_p]
  rw [MhtStorage.readBlock, run_get_bind, this]
  rfl

theorem StoredHistory.readDataNode {e : MhtNodeEntry Key Mac} {block : Bytes}
    (covers : EntryCovers env hist 0 e [block]) : (readDataNode env e).run s = .ok block s := by
  obtain ⟨_, one, at_p, mac⟩ := covers
  cases one
  rw [MhtStorage.readDataNode, MhtStorage.decryptBlock, run_bind (stored.readBlock at_p), mac,
    Cell.cipher, sealData, env.decrypt_encrypt]
  rfl

/-- A node of the history is read back, from the cache or from the log. -/
theorem StoredHistory.readMhtNode {pos : Nat} {node : MhtNode Key Mac} {key : Key} {iv : Iv}
    (at_p : hist[pos]? = some (.node node key iv)) :
    ∃ s', (readMhtNode env pos key (sealNode env node key iv).2 iv).run s = .ok node s' ∧
      StoredHistory env hist s' := by
  have kept : StoredHistory env hist { s with nodeCache := (env.cache.get s.nodeCache pos).2 } :=
    ⟨stored.log, fun p v held => stored.cached p v (env.cache.get_holds held)⟩
  unfold MhtStorage.readMhtNode
  rw [run_get_bind, run_set_bind]
  cases hit : (env.cache.get s.nodeCache pos).1 with
  | some cached =>
    obtain ⟨key', iv', at_p'⟩ := stored.cached pos cached (env.cache.get_some hit)
    rw [at_p] at at_p'
    cases at_p'
    exact ⟨_, rfl, kept⟩
  | none =>
    have plain : (decryptBlock env pos key (sealNode env node key iv).2 iv).run
        { s with nodeCache := (env.cache.get s.nodeCache pos).2 } =
        .ok (env.asBytes node) { s with nodeCache := (env.cache.get s.nodeCache pos).2 } := by
      rw [decryptBlock, run_bind (kept.readBlock at_p), Cell.cipher, sealNode, env.decrypt_encrypt]
      rfl
    rw [run_bind plain]
    simp only [env.fromBytes_asBytes]
    refine ⟨_, rfl, kept.log, fun p v held => ?_⟩
    rcases env.cache.put_holds held with ⟨rfl, rfl⟩ | old
    · exact ⟨key, iv, at_p⟩
    · exact kept.cached p v old

/-- Entries of one level lead to nodes that cover the same pieces. -/
theorem StoredHistory.loadNodes {c : Nat} (covers : Covers (EntryCovers env hist (h + 1)) c es ds) :
    ∃ nodes s', (readMhtNodes env es).run s = .ok nodes s' ∧ StoredHistory env hist s' ∧
      Covers (NodeCovers env (EntryCovers env hist h) h) c nodes ds := by
  have read : ∀ {es : List (MhtNodeEntry Key Mac)} {s : MhtStorage κ}, StoredHistory env hist s →
      (∀ e ∈ es, ∃ d, EntryCovers env hist (h + 1) e d) → ∃ nodes s',
      (readMhtNodes env es).run s = .ok nodes s' ∧ StoredHistory env hist s' ∧
        List.Forall₂ (fun e node => hist[e.pos]? = some (.node node e.key (zeroIv env))) es nodes := by
    intro es
    induction es with
    | nil => exact fun stored _ => ⟨[], _, rfl, stored, .nil⟩
    | cons e es ih =>
      intro s stored named
      obtain ⟨⟨d, node, at_p, mac, -⟩, named⟩ := forall_mem_cons.mp named
      obtain ⟨s1, read, stored⟩ := stored.readMhtNode at_p
      obtain ⟨nodes, s2, rest, stored, related⟩ := ih stored named
      refine ⟨node :: nodes, s2, ?_, stored, .cons at_p related⟩
      rw [readMhtNodes, mac, run_bind read, run_bind rest]
      rfl
  obtain ⟨nodes, s', ok, stored, related⟩ := read stored fun e mem => by
    obtain ⟨i, at_i⟩ := getElem?_of_mem mem
    exact ⟨_, covers.each i e at_i⟩
  refine ⟨nodes, s', ok, stored, covers.of_forall₂ related ?_⟩
  rintro e node d ⟨node', at_p, -, inner⟩ at_p'
  rw [at_p] at at_p'
  cases at_p'
  exact inner

variable (covers : Covers (EntryCovers env hist 0) 1 es ds) (ctx : SearchCtx)
include covers ctx

/-- Reading covered blocks is like copying them. -/
theorem StoredHistory.readDataNodes_eq : (readDataNodes env es ctx).run s = (copyDataNodes ds ctx).run s := by
  induction es generalizing ds ctx with
  | nil =>
    have none : ds = [] := by simpa using covers.count 0
    subst none
    rfl
  | cons e es ih =>
    obtain ⟨block, ds, rfl⟩ : ∃ block ds', ds = block :: ds' := by
      cases ds with
      | nil => simpa using covers.count 0
      | cons block ds => exact ⟨block, ds, rfl⟩
    have first : EntryCovers env hist 0 e [block] := by simpa [piece] using covers.each 0 e rfl
    have rest : Covers (EntryCovers env hist 0) 1 es ds := by simpa using covers.drop 1
    rw [readDataNodes, run_bind (stored.readDataNode first), copyDataNodes, fill]
    split
    · exact ih rest _
    · rfl

/-- Reading covered blocks fills the buffer from the offset on. -/
theorem StoredHistory.readDataNodes
    (room : ctx.offset + ds.length ≤ ctx.dataBuf.length) : (readDataNodes env es ctx).run s = .ok
      { ctx with
        dataBuf := ctx.dataBuf.take ctx.offset ++ ds ++ ctx.dataBuf.drop (ctx.offset + ds.length)
        offset := ctx.offset + ds.length } s := by
  rw [stored.readDataNodes_eq covers, copyDataNodes_run (le_of_add_right_le room), if_pos room]

end

/-! ## Searching -/

variable {nodes : List (MhtNode Key Mac)}

/-- All nodes of a level but the last one are full, so that only the end of their entries is
padding. -/
theorem flatMap_entries (covers : Covers (NodeCovers env child h) (mhtNbranches ^ (h + 1)) nodes ds) :
    ∃ es padding, nodes.flatMap (·.entries) = es ++ padding ∧ Covers child (mhtNbranches ^ h) es ds := by
  have unit := mhtNbranches_pow_pos h
  induction nodes generalizing ds with
  | nil =>
    have none : ds = [] := by simpa using covers.count 0
    subst none
    exact ⟨[], [], rfl, .nil _ _⟩
  | cons node nodes ih =>
    obtain ⟨es, shape, first, few, -⟩ := covers.each 0 node rfl
    have rest := covers.drop 1
    simp only [piece, Nat.zero_mul, drop_zero, one_mul] at first rest
    have entries : node.entries = es ++ replicate (mhtNbranches - es.length) env.uninit := by
      rw [shape, ofEntries_entries few]
    have pow : mhtNbranches ^ (h + 1) = mhtNbranches * mhtNbranches ^ h := by
      rw [pow_succ, mul_comm]
    cases nodes with
    | nil =>
      have short : ds.length ≤ mhtNbranches ^ (h + 1) := by simpa using covers.count 1
      rw [take_of_length_le short] at first
      exact ⟨es, _, by simpa using entries, first⟩
    | cons next nodes =>
      have long : mhtNbranches ^ (h + 1) < ds.length := by simpa using covers.count 1
      rw [pow] at first long
      have full : es.length = mhtNbranches := first.length_of_mul unit (by
        rw [length_take, min_eq_left (le_of_lt long)])
      obtain ⟨es', padding, flat, others⟩ := ih rest
      refine ⟨es ++ es', padding, ?_, first.append (pow ▸ others) unit (le_of_lt long)⟩
      rw [flatMap_cons, flat, entries, full]
      simp

theorem le_divCeil_mul {u : Nat} (pos : 0 < u) (x : Nat) : x ≤ divCeil x u * u := by
  have := lt_mul_div_succ (x + u - 1) pos
  rw [Nat.mul_add, mul_comm] at this
  unfold divCeil
  omega

theorem divCeil_mul_lt {u : Nat} (pos : 0 < u) (x : Nat) : divCeil x u * u < x + u := by
  have := div_mul_le_self (x + u - 1) u
  unfold divCeil
  omega

/-- The entries that the search of one level selects cover the range it asks for. -/
theorem targets_cover (covers : Covers (NodeCovers env child h) (mhtNbranches ^ (h + 1)) nodes ds)
    {pos num skipped pos' needed : Nat} (inside : pos + num ≤ ds.length) (skips : skipped = pos / mhtNbranches ^ h)
    (offset : pos' = pos - skipped * mhtNbranches ^ h) (needs : needed = divCeil (num + pos') (mhtNbranches ^ h)) :
    ∃ ds', Covers child (mhtNbranches ^ h) (((nodes.flatMap (·.entries)).drop skipped).take needed) ds' ∧
      pos' + num ≤ ds'.length ∧ (ds'.drop pos').take num = (ds.drop pos).take num := by
  have unit := mhtNbranches_pow_pos h
  obtain ⟨es, padding, flat, entries⟩ := flatMap_entries covers
  generalize mhtNbranches ^ h = u at skips offset needs unit entries ⊢
  have whole := div_mul_le_self pos u
  have enough := le_divCeil_mul unit (num + pos')
  have tight := divCeil_mul_lt unit (num + pos')
  rw [← needs] at enough tight
  rw [← skips] at whole
  -- no padding is selected: the last entry needed starts before the end of the range
  have few : needed = 0 ∨ skipped + needed ≤ es.length := by
    rcases Nat.eq_zero_or_pos needed with none | some
    · exact .inl none
    obtain ⟨last, rfl⟩ : ∃ last, needed = last + 1 := ⟨needed - 1, by omega⟩
    have := (entries.count (skipped + last)).mpr (by
      rw [Nat.add_mul] at tight ⊢
      omega)
    exact .inr (by omega)
  refine ⟨(ds.drop (skipped * u)).take (needed * u), ?_, ?_, ?_⟩
  · have : ((es ++ padding).drop skipped).take needed = (es.drop skipped).take needed := by
      rcases few with rfl | few
      · simp
      · rw [drop_append_of_le_length (by omega), take_append_of_le_length (by rw [length_drop]; omega)]
    rw [flat, this]
    exact (entries.drop skipped).take unit needed
  · rw [length_take, length_drop]
    omega
  · rw [drop_take, drop_drop, take_take, min_eq_left (by omega)]
    congr 2
    omega

/-- A search below nodes that cover `ds` finds the blocks of `ds`. -/
theorem StoredHistory.search (stored : StoredHistory env hist s)
    (covers : Covers (NodeCovers env (EntryCovers env hist h) h) (mhtNbranches ^ (h + 1)) nodes ds) (ctx : SearchCtx)
    (inside : ctx.pos + ctx.num ≤ ds.length) (fresh : ctx.offset = 0) (room : ctx.num ≤ ctx.dataBuf.length) :
    ∃ ctx' s', (searchHierarchy env (h + 1) nodes ctx).run s = .ok ctx' s' ∧ StoredHistory env hist s' ∧
      ctx'.dataBuf = (ds.drop ctx.pos).take ctx.num ++ ctx.dataBuf.drop ctx.num := by
  induction h generalizing nodes ds ctx s with
  | zero =>
    obtain ⟨ds', wanted, -, same⟩ := targets_cover covers inside rfl rfl rfl
    simp only [pow_zero, Nat.div_one, mul_one, Nat.sub_self, add_zero, divCeil,
      Nat.add_sub_cancel, drop_zero] at wanted same
    have short : ds'.length ≤ ctx.num := by
      rw [← wanted.length_of_mul Nat.one_pos (mul_one _).symm]
      exact length_take_le _ _
    rw [take_of_length_le short] at same
    have taken : ds'.length = ctx.num := by
      rw [same, length_take, length_drop]; omega
    have read := stored.readDataNodes wanted { ctx with pos := 0 } (by simp only [fresh]; omega)
    simp only [taken, fresh, zero_add, take_zero, nil_append] at read
    have lowest : isLowestLevel (0 + 1) = true := rfl
    simp only [searchHierarchy, maxNumDataNodes, pow_zero, Nat.div_one,
      mul_one, Nat.sub_self, add_zero, divCeil, Nat.add_sub_cancel, lowest, if_true, fresh]
    rw [run_bind read]
    exact ⟨_, s, rfl, stored, by rw [same]⟩
  | succ h ih =>
    obtain ⟨ds', wanted, inside', same⟩ := targets_cover covers inside rfl rfl rfl
    obtain ⟨nodes', s1, read, stored1, covers'⟩ := stored.loadNodes wanted
    obtain ⟨ctx', s2, found, stored2, buf⟩ := ih stored1 covers'
      { ctx with pos := ctx.pos - ctx.pos / mhtNbranches ^ (h + 1) * mhtNbranches ^ (h + 1) }
      inside' fresh room
    refine ⟨ctx', s2, ?_, stored2, by rw [buf]; simp only [same]⟩
    have inner : isLowestLevel (h + 1 + 1) = false := by simp [isLowestLevel]
    rw [searchHierarchy]
    simp only [maxNumDataNodes, inner, Bool.false_eq_true, if_false]
    rw [run_bind read]
    exact found

end OmegaOsx.MlsDisk
