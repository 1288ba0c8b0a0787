import OmegaOsx.MlsDisk.MhtInvariant

/-!
# Rebuilding a Merkle tree

A build takes the entries of new data blocks and goes up level by level. On each level the previous
node on the right spine gives the entries of its complete children, and only what comes after them
is built again. `Resumes` says where each level starts.

`num_complete_children` looks at the number of data blocks modulo the number of branches. This tells
whether the last child is complete only up to height two; `Rebuildable` is the condition on the
number of blocks under which it is right on all levels.
-/

namespace OmegaOsx.MlsDisk

open Pieces TreeBuilder LevelBuilder MhtNode PreviousBuild MhtStorage List Option Nat

variable {κ Key Iv Mac : Type} {env : MhtEnv κ Key Iv Mac} {hist : History Key Iv Mac}
  {s s' : MhtStorage κ}

/-! ## Appending nodes -/

theorem sealNodes_run (plains : List Bytes) (pos : Nat) (s : MhtStorage κ) :
    (sealNodes env pos plains).run s = .ok
      (plains.mapIdx fun i plain => (sealData env plain (env.randomKey (s.draws + i))).1,
        plains.mapIdx fun i plain => ⟨pos + i, env.randomKey (s.draws + i),
          (sealData env plain (env.randomKey (s.draws + i))).2⟩)
      { s with draws := s.draws + plains.length } := by
  induction plains generalizing pos s with
  | nil => rfl
  | cons plain plains ih =>
    have drawn : (randomKey env).run s = .ok (env.randomKey s.draws) { s with draws := s.draws + 1 } := rfl
    rw [sealNodes, run_bind drawn, run_bind (ih (pos + 1) _)]
    simp only [mapIdx_cons, add_assoc, add_comm 1]
    rfl

variable (env) in
theorem putNodes_run (nodes : List (MhtNode Key Mac)) (pos : Nat) (s : MhtStorage κ) :
    ∃ cache, (putNodes env pos nodes).run s = .ok ⟨⟩ { s with nodeCache := cache } ∧
      ∀ p v, env.cache.holds cache p v → env.cache.holds s.nodeCache p v ∨ ∃ i, p = pos + i ∧
        nodes[i]? = some v := by
  induction nodes generalizing pos s with
  | nil => exact ⟨s.nodeCache, rfl, fun p v held => .inl held⟩
  | cons node nodes ih =>
    obtain ⟨cache, ok, held⟩ := ih (pos + 1) { s with nodeCache := env.cache.put s.nodeCache pos node }
    refine ⟨cache, ?_, fun p v at_p => ?_⟩
    · have put : (putNode env pos node).run s = .ok ⟨⟩
        { s with nodeCache := env.cache.put s.nodeCache pos node } := rfl
      rw [putNodes, run_bind put, ok]
    · rcases held p v at_p with old | ⟨i, rfl, at_i⟩
      · rcases env.cache.put_holds old with ⟨rfl, rfl⟩ | old
        · exact .inr ⟨0, rfl, rfl⟩
        · exact .inl old
      · exact .inr ⟨i + 1, by omega, at_i⟩

section

variable (stored : StoredHistory env hist s)
include stored

/-- The history a block log has after new cells were appended to it. -/
theorem StoredHistory.append (more : History Key Iv Mac) (log : s'.blockLog = s.blockLog ++ more.map (Cell.cipher env))
    (cached : ∀ p v, env.cache.holds s'.nodeCache p v → env.cache.holds s.nodeCache p v ∨
      ∃ key iv, (hist ++ more)[p]? = some (.node v key iv)) :
    StoredHistory env (hist ++ more) s' := by
  refine ⟨by rw [log, stored.log, map_append], fun p v held => ?_⟩
  rcases cached p v held with old | new
  · obtain ⟨key, iv, at_p⟩ := stored.cached p v old
    exact ⟨key, iv, by rw [getElem?_append_left (List.getElem?_eq_some_iff.mp at_p).1, at_p]⟩
  · exact new

theorem StoredHistory.length_eq : s.blockLog.length = hist.length := by
  rw [stored.log, length_map]

theorem StoredHistory.appendDataNodes (blocks : List Bytes) :
    ∃ more es s', (appendDataNodes env blocks).run s = .ok es s' ∧ StoredHistory env (hist ++ more) s' ∧
      Covers (EntryCovers env (hist ++ more) 0) 1 es blocks := by
  rcases Nat.eq_zero_or_pos blocks.length with none | some
  · have empty : blocks = [] := length_eq_zero_iff.mp none
    subst empty
    exact ⟨[], [], s, rfl, by rw [append_nil]; exact stored, .nil _ _⟩
  let more : History Key Iv Mac := blocks.mapIdx fun i block => .data block (env.randomKey (s.draws + i))
  rw [MhtStorage.appendDataNodes, if_neg (by omega), run_get_bind, run_bind (sealNodes_run blocks _ s)]
  refine ⟨more, _, _, rfl, ?_, ?_⟩
  · refine stored.append more ?_ fun p v held => .inl held
    refine congrArg _ (ext_getElem? fun i => ?_)
    simp [more, Function.comp_def, Cell.cipher]
  refine covers_one (by simp) fun i e block at_i block_i => ?_
  simp only [getElem?_mapIdx, block_i, map_some, Option.some.injEq] at at_i
  subst at_i
  refine ⟨block, rfl, ?_, rfl⟩
  rw [stored.length_eq, getElem?_append_right (by simp)]
  simp [more, block_i]

end

variable (env) in
/-- The entry leads to the node. -/
def Names (hist : History Key Iv Mac) (node : MhtNode Key Mac) (e : MhtNodeEntry Key Mac) : Prop :=
  hist[e.pos]? = some (.node node e.key (MhtStorage.zeroIv env)) ∧
    e.mac = (sealNode env node e.key (MhtStorage.zeroIv env)).2

variable {nodes : List (MhtNode Key Mac)}

theorem StoredHistory.appendMhtNodes (stored : StoredHistory env hist s) (some : 0 < nodes.length) :
    ∃ more es s', (appendMhtNodes env nodes).run s = .ok es s' ∧
      StoredHistory env (hist ++ more) s' ∧ List.Forall₂ (Names env (hist ++ more)) nodes es := by
  let more : History Key Iv Mac := nodes.mapIdx fun i node =>
    .node node (env.randomKey (s.draws + i)) (zeroIv env)
  obtain ⟨cache, put, held⟩ := putNodes_run env nodes s.blockLog.length
    { s with draws := s.draws + (nodes.map env.asBytes).length }
  have at_end : ∀ {i : Nat} {node : MhtNode Key Mac}, nodes[i]? = .some node →
      (hist ++ more)[s.blockLog.length + i]? = .some (.node node (env.randomKey (s.draws + i)) (zeroIv env)) := by
    intro i node at_i
    rw [stored.length_eq, getElem?_append_right (by simp)]
    simp [more, at_i]
  rw [MhtStorage.appendMhtNodes, if_neg (by omega), run_get_bind,
    run_bind (sealNodes_run _ _ s), run_get_bind, run_bind put]
  refine ⟨more, _, _, rfl, ?_, ?_⟩
  · refine stored.append more ?_ fun p v at_p => ?_
    · refine congrArg _ (ext_getElem? fun i => ?_)
      simp [more, Function.comp_def, Cell.cipher, sealNode, sealData]
    · rcases held p v at_p with old | ⟨i, rfl, at_i⟩
      · exact .inl old
      · exact .inr ⟨_, _, at_end at_i⟩
  · refine forall₂_iff_get.mpr ⟨by simp, fun i inside _ => ?_⟩
    simp only [get_eq_getElem, getElem_mapIdx, getElem_map]
    exact ⟨at_end (getElem?_eq_getElem inside), rfl⟩

variable {ds : List Bytes} {h : Nat} {es : List (MhtNodeEntry Key Mac)}

/-- New entries of a level cover what the nodes they stand for cover. -/
theorem covers_of_names {c : Nat} {more : History Key Iv Mac}
    (covers : Covers (NodeCovers env (EntryCovers env hist h) h) c nodes ds)
    (names : List.Forall₂ (Names env (hist ++ more)) nodes es) :
    Covers (EntryCovers env (hist ++ more) (h + 1)) c es ds :=
  covers.of_forall₂ names fun node _ _ inner ⟨at_p, mac⟩ =>
    ⟨node, at_p, mac, inner.mono fun _ _ inner => inner.append more⟩

theorem StoredHistory.appendRootMhtNode (stored : StoredHistory env hist s) (key : Key) (node : MhtNode Key Mac) :
    ∃ rootMeta s', (appendRootMhtNode env key node).run s = .ok rootMeta s' ∧
      StoredHistory env (hist ++ [.node node key rootMeta.iv]) s' ∧
      rootMeta.pos = hist.length ∧ rootMeta.mac = (sealNode env node key rootMeta.iv).2 := by
  refine ⟨⟨s.blockLog.length, _, env.crypto.randomIv s.draws⟩, _, rfl, ?_, stored.length_eq, rfl⟩
  refine stored.append _ rfl fun p v at_p => ?_
  rcases env.cache.put_holds at_p with ⟨rfl, rfl⟩ | old
  · exact .inr ⟨key, env.crypto.randomIv s.draws, by simp [stored.length_eq]⟩
  · exact .inl old

/-! ## Heights -/

/-- `n` blocks need a tree of height `h + 1`. -/
def NeedsHeight (n h : Nat) : Prop := n ≤ mhtNbranches ^ (h + 1) ∧ (h = 0 ∨ mhtNbranches ^ h < n)

variable {n : Nat}

theorem NeedsHeight.mono {n' h' : Nat} (needs : NeedsHeight n h) (needs' : NeedsHeight n' h') (le : n ≤ n') :
    h ≤ h' := by
  by_contra lt
  have pow : mhtNbranches ^ (h' + 1) ≤ mhtNbranches ^ h := Nat.pow_le_pow_right mhtNbranches_pos (by omega)
  rcases needs.2 with rfl | more
  · omega
  · have := needs'.1
    omega

theorem calcTargetHeight_run (some : 0 < n) : ∃ h, NeedsHeight n h ∧ calcTargetHeight n = .ok (h + 1) := by
  have lower := pow_log_le_self mhtNbranches (ne_of_gt some)
  have upper := lt_pow_succ_log_self mhtNbranches_gt_one n
  rw [calcTargetHeight, if_neg (ne_of_gt some)]
  generalize log mhtNbranches n = l at *
  dsimp only
  split
  next higher => exact ⟨l, ⟨le_of_lt upper, by omega⟩, rfl⟩
  next equal =>
    obtain ⟨k, rfl⟩ : ∃ k, l = k + 1 := ⟨l - 1, by omega⟩
    have step : mhtNbranches ^ k < mhtNbranches ^ (k + 1) := Nat.pow_lt_pow_right mhtNbranches_gt_one (lt_succ_self k)
    exact ⟨k, ⟨by omega, .inr (by omega)⟩, rfl⟩

theorem calcTargetHeight_eq (some : 0 < n) (needs : NeedsHeight n h) : calcTargetHeight n = .ok (h + 1) := by
  obtain ⟨h', needs', ok⟩ := calcTargetHeight_run some
  have le := needs.mono needs' (le_refl n)
  have ge := needs'.mono needs (le_refl n)
  rw [ok, le_antisymm le ge]

/-! ## The right spine -/

/-- Where the last node of a level starts, if it is not complete. -/
def spineStart (n k : Nat) : Nat := n - n % mhtNbranches ^ k

theorem spineStart_dvd (n k : Nat) : mhtNbranches ^ k ∣ spineStart n k := dvd_sub_mod n

theorem spineStart_le (n k : Nat) : spineStart n k ≤ n := sub_le _ _

variable {k : Nat}

/-- The spine of the part after a multiple of the node size is the spine of the whole. -/
theorem spineStart_sub {start : Nat} (dvd : mhtNbranches ^ k ∣ start) (le : start ≤ n) :
    start + spineStart (n - start) k = spineStart n k := by
  obtain ⟨q, rfl⟩ := dvd
  have mod : (n - mhtNbranches ^ k * q) % mhtNbranches ^ k = n % mhtNbranches ^ k := sub_mul_mod le
  have small := mod_le (n - mhtNbranches ^ k * q) (mhtNbranches ^ k)
  unfold spineStart
  omega

variable {node : MhtNode Key Mac}

theorem StoredHistory.lastChild (stored : StoredHistory env hist s)
    (covers : NodeCovers env (EntryCovers env hist (h + 1)) (h + 1) node ds) :
    ∃ child start s', (lastChild env node).run s = .ok child s' ∧
      StoredHistory env hist s' ∧ mhtNbranches ^ (h + 1) ∣ start ∧ start ≤ ds.length ∧
      NodeCovers env (EntryCovers env hist h) h child (ds.drop start) := by
  obtain ⟨es, rfl, covers, few, some⟩ := covers
  have nonempty : 0 < es.length := (covers.count 0).mpr (by omega)
  obtain ⟨last, length_eq⟩ : ∃ last, es.length = last + 1 := ⟨es.length - 1, by omega⟩
  have inside : last < es.length := by omega
  have entry : (ofEntries env (h + 1 + 1) ds.length es).entries[last]? = .some es[last] := by
    rw [ofEntries_entries few, getElem?_append_left inside, getElem?_eq_getElem inside]
  obtain ⟨child, at_p, mac, inner⟩ := covers.each last es[last] (getElem?_eq_getElem inside)
  obtain ⟨s', read, stored'⟩ := stored.readMhtNode at_p
  have begins := (covers.count last).mp inside
  have ends := (covers.count es.length).not.mp (lt_irrefl _)
  rw [length_eq, Nat.add_mul] at ends
  have all : piece (mhtNbranches ^ (h + 1)) last ds = ds.drop (last * mhtNbranches ^ (h + 1)) :=
    take_of_length_le (by rw [length_drop]; omega)
  rw [all] at inner
  refine ⟨child, last * mhtNbranches ^ (h + 1), s', ?_, stored', ⟨last, mul_comm _ _⟩, le_of_lt begins, inner⟩
  have index : (liftRes (checkedSub (ofEntries env (h + 1 + 1) ds.length es).numValidEntries
      1) : StoreM κ Nat).run s = .ok last s := by
    rw [ofEntries_numValidEntries few, length_eq]
    rfl
  rw [lastChild, run_bind index, entry]
  simp only [mac]
  exact unwrap_run read

variable (env hist) in
/-- What the previous tree over `ds` has to offer at height `k + 1`: its last node there, unless that
node is complete. -/
def SpineNode (ds : List Bytes) (k : Nat) (target : Option (MhtNode Key Mac)) : Prop :=
  (mhtNbranches ^ (k + 1) ∣ ds.length ∧ target = none) ∨
  (¬ mhtNbranches ^ (k + 1) ∣ ds.length ∧ ∃ node, target = some node ∧
    NodeCovers env (EntryCovers env hist k) k node (ds.drop (spineStart ds.length (k + 1))))

theorem SpineNode.of_drop {start : Nat} {target : Option (MhtNode Key Mac)} (dvd : mhtNbranches ^ (h + 1) ∣ start)
    (le : start ≤ ds.length) (lower : k ≤ h) (spine : SpineNode env hist (ds.drop start) k target) :
    SpineNode env hist ds k target := by
  replace dvd : mhtNbranches ^ (k + 1) ∣ start := Nat.dvd_trans (Nat.pow_dvd_pow _ (by omega)) dvd
  rw [SpineNode, length_drop, drop_drop, spineStart_sub dvd le, dvd_sub_iff_left le dvd] at spine
  exact spine

/-- A node with fewer blocks than it could have is its own spine at its height. -/
theorem SpineNode.of_incomplete (covers : NodeCovers env (EntryCovers env hist h) h node ds)
    (lt : ds.length < mhtNbranches ^ (h + 1)) : SpineNode env hist ds h (some node) := by
  have some : 0 < ds.length := by
    obtain ⟨_, -, -, -, some⟩ := covers
    exact some
  refine .inr ⟨not_dvd_of_pos_of_lt some lt, node, rfl, ?_⟩
  rw [spineStart, mod_eq_of_lt lt, Nat.sub_self]
  exact covers

variable {child : MhtNodeEntry Key Mac → List Bytes → Prop}

section

variable (covers : NodeCovers env child h node ds) (small : ds.length < 2 ^ 32)
include covers small

theorem NodeCovers.isIncomplete_iff : node.isIncomplete = true ↔ ds.length < mhtNbranches ^ (h + 1) := by
  have le := covers.length_le
  simp only [isIncomplete, covers.numDataNodes_eq small, covers.height_eq, maxNumDataNodes, bne_iff_ne]
  omega

/-- Below a complete node there is nothing to resume. -/
theorem SpineNode.of_complete (complete : ¬ node.isIncomplete = true) (le : k ≤ h) :
    SpineNode env hist ds k none := by
  rw [covers.isIncomplete_iff small] at complete
  have full : ds.length = mhtNbranches ^ (h + 1) := by
    have := covers.length_le
    omega
  exact .inl ⟨full ▸ Nat.pow_dvd_pow _ (by omega), rfl⟩

end

/-- The loop collects the incomplete nodes of the spine. -/
theorem StoredHistory.collectFrom (stored : StoredHistory env hist s) {fuel : Nat}
    (covers : NodeCovers env (EntryCovers env hist h) h node ds) (small : ds.length < 2 ^ 32) (enough : h < fuel) :
    ∃ nodes s', (collectFrom env fuel node).run s = .ok nodes s' ∧
      StoredHistory env hist s' ∧ (∀ k, h < k → nodes.lookup (k + 1) = none) ∧
      ∀ k ≤ h, SpineNode env hist ds k (nodes.lookup (k + 1)) := by
  induction fuel generalizing h node ds s with
  | zero => omega
  | succ fuel ih =>
    rw [collectFrom]
    by_cases incomplete : node.isIncomplete
    · have own := SpineNode.of_incomplete covers ((covers.isIncomplete_iff small).mp incomplete)
      have other {k l : Nat} (ne : k ≠ l) : ((k + 1) == (l + 1)) = false := by simpa using ne
      rw [if_pos incomplete, covers.height_eq]
      cases h with
      | zero =>
        refine ⟨_, s, rfl, stored, fun k lt => ?_, fun k le => ?_⟩
        · simp only [lookup_cons, lookup_nil, other lt.ne']
        · obtain rfl : k = 0 := by omega
          simpa [lookup_cons] using own
      | succ h =>
        obtain ⟨child, start, s1, last, stored1, dvd, le, below⟩ := stored.lastChild covers
        obtain ⟨nodes, s2, collected, stored2, above, spine⟩ :=
          ih stored1 below (by rw [length_drop]; omega) (by omega)
        rw [if_neg (by simp [isLowestLevel]), run_bind last, run_bind collected]
        refine ⟨_, s2, rfl, stored2, fun k lt => ?_, fun k le' => ?_⟩
        · simp only [lookup_cons, other lt.ne']
          exact above k (by omega)
        rcases lt_or_eq_of_le le' with lt | rfl
        · simp only [lookup_cons, other lt.ne]
          exact (spine k (by omega)).of_drop dvd le (by omega)
        · simpa [lookup_cons] using own
    · rw [if_neg incomplete]
      exact ⟨[], s, rfl, stored, fun _ _ => rfl, fun k le => .of_complete covers small incomplete le⟩

variable (env hist) in
/-- What a previous tree of height `h + 1` offers to a build. -/
structure Spine (ds : List Bytes) (h : Nat) (root : MhtNode Key Mac)
    (target : Nat → Option (MhtNode Key Mac)) : Prop where
  top : target (h + 1) = some root
  above : ∀ k, h < k → target (k + 1) = none
  below : ∀ k < h, SpineNode env hist ds k (target (k + 1))

theorem StoredHistory.previousBuild (stored : StoredHistory env hist s) {root : MhtNode Key Mac}
    (covers : NodeCovers env (EntryCovers env hist h) h root ds) (small : ds.length < 2 ^ 32) :
    ∃ p s', (previousBuiltRoot env (some root)).run s = .ok (some p) s' ∧ StoredHistory env hist s' ∧
      p.root = root ∧ Spine env hist ds h root p.targetNode := by
  suffices collected : ∃ nodes s', (PreviousBuild.new env root).run s = .ok ⟨root, nodes⟩ s' ∧
      StoredHistory env hist s' ∧ (∀ k, h < k → nodes.lookup (k + 1) = none) ∧
      ∀ k < h, SpineNode env hist ds k (nodes.lookup (k + 1)) by
    obtain ⟨nodes, s', ran, stored', above, below⟩ := collected
    have other {k : Nat} (ne : k ≠ h) : (PreviousBuild.mk root nodes).targetNode (k + 1) = nodes.lookup (k + 1) := by
      rw [targetNode, if_neg (by rw [covers.height_eq]; omega)]
    refine ⟨⟨root, nodes⟩, s', ?_, stored', rfl, ?_, fun k gt => (other gt.ne').trans (above k gt),
      fun k lt => other lt.ne ▸ below k lt⟩
    · rw [previousBuiltRoot, run_bind ran]
      rfl
    · rw [targetNode, if_pos covers.height_eq.symm]
  rw [PreviousBuild.new, covers.height_eq]
  by_cases incomplete : root.isIncomplete
  · cases h with
    | zero =>
      refine ⟨[], s, ?_, stored, fun _ _ => rfl, fun k lt => by omega⟩
      rw [if_pos (by simp [isLowestLevel])]
      rfl
    | succ h =>
      obtain ⟨child, start, s1, last, stored1, dvd, le, below⟩ := stored.lastChild covers
      obtain ⟨nodes, s2, collected, stored2, above, spine⟩ :=
        stored1.collectFrom below (by rw [length_drop]; omega) (show h < h + 1 + 1 by omega)
      refine ⟨nodes, s2, ?_, stored2, fun k lt => above k (by omega),
        fun k lt => (spine k (by omega)).of_drop dvd le (by omega)⟩
      rw [incomplete, if_neg (by simp [isLowestLevel]), run_bind last, run_bind collected]
      rfl
  · refine ⟨[], s, ?_, stored, fun _ _ => rfl, fun k lt => .of_complete covers small incomplete (by omega)⟩
    rw [if_pos (by simp [incomplete])]
    rfl

/-! ## Where a build resumes -/

/-- The number of complete children is computed from the number of blocks modulo the number of
branches; this is what it takes for it to be right. -/
theorem NodeCovers.numCompleteChildren_eq (covers : NodeCovers env child h node ds) (small : ds.length < 2 ^ 32)
    (aligned : mhtNbranches ∣ ds.length → mhtNbranches ^ h ∣ ds.length) :
    node.numCompleteChildren = .ok (ds.length / mhtNbranches ^ h) := by
  have count := covers.numDataNodes_eq small
  have height := covers.height_eq
  have unit := mhtNbranches_pow_pos h
  obtain ⟨es, rfl, covers, few, some⟩ := covers
  rw [numCompleteChildren, count, height, ofEntries_numValidEntries few]
  by_cases whole : mhtNbranches ^ h ∣ ds.length
  · have length_eq : es.length = ds.length / mhtNbranches ^ h :=
      covers.length_of_mul unit (Nat.div_mul_cancel whole).symm
    rw [if_pos, length_eq]
    by_cases lowest : h = 0
    · exact .inr (by simp [isLowestLevel, lowest])
    · exact .inl (mod_eq_zero_of_dvd (dvd_of_pow_dvd (Nat.pos_of_ne_zero lowest) whole))
  have higher : h ≠ 0 := fun zero => whole (by simp [zero])
  have partial_ : ¬ mhtNbranches ∣ ds.length := fun dvd => whole (aligned dvd)
  have nonempty : 0 < es.length := (covers.count 0).mpr (by omega)
  rw [if_neg, checkedSub_of_le nonempty]
  · obtain ⟨last, length_eq⟩ : ∃ last, es.length = last + 1 := ⟨es.length - 1, by omega⟩
    have begins := (covers.count last).mp (by omega)
    have ends := (covers.count (last + 1)).not.mp (by omega)
    have ne : ds.length ≠ (last + 1) * mhtNbranches ^ h := fun eq => whole ⟨_, by rw [eq, mul_comm]⟩
    rw [length_eq]
    exact congrArg _ (Nat.div_eq_of_lt_le (le_of_lt begins) (by omega)).symm
  · rintro (zero | lowest)
    · exact partial_ (dvd_of_mod_eq_zero zero)
    · exact higher (by simpa [isLowestLevel] using lowest)

/-- The number of blocks of a tree that can be extended. -/
def Rebuildable (n : Nat) : Prop :=
  ∀ h, NeedsHeight n h → mhtNbranches ∣ n → mhtNbranches ^ h ∣ n

variable (env hist) in
/-- On each level a build starts at `start`, and takes over the complete children of the previous
node, if there is one. -/
structure Resumes (old : List Bytes) (target : Nat → Option (MhtNode Key Mac)) (start : Nat → Nat) :
    Prop where
  zero : start 0 = old.length
  dvd : ∀ k, mhtNbranches ^ k ∣ start k
  le : ∀ k, start (k + 1) ≤ start k
  level : ∀ k, (target (k + 1) = none ∧ start (k + 1) = start k) ∨
    ∃ node c, target (k + 1) = some node ∧
      NodeCovers env (EntryCovers env hist k) k node (old.drop (start (k + 1))) ∧
      node.numCompleteChildren = .ok c ∧ start k = start (k + 1) + c * mhtNbranches ^ k

theorem Resumes.nil : Resumes env hist [] (fun _ => none) (fun _ => 0) where
  zero := rfl
  dvd _ := Nat.dvd_zero _
  le _ := le_refl 0
  level _ := .inl ⟨rfl, rfl⟩

variable {old : List Bytes} {start : Nat → Nat} {target : Nat → Option (MhtNode Key Mac)}

theorem Resumes.append (resumes : Resumes env hist old target start) (more : History Key Iv Mac) :
    Resumes env (hist ++ more) old target start := by
  refine ⟨resumes.zero, resumes.dvd, resumes.le, fun k => ?_⟩
  rcases resumes.level k with none | ⟨node, c, target_eq, covers, complete, start_eq⟩
  · exact .inl none
  · exact .inr ⟨node, c, target_eq, covers.mono fun _ _ inner => inner.append more, complete, start_eq⟩

theorem Resumes.start_le (resumes : Resumes env hist old target start) (k : Nat) : start k ≤ old.length := by
  induction k with
  | zero => exact le_of_eq resumes.zero
  | succ k ih => exact le_trans (resumes.le k) ih

theorem spineStart_add {start : Nat} (dvd : mhtNbranches ^ k ∣ start) (le : start ≤ n) :
    spineStart n k = start + (n - start) / mhtNbranches ^ k * mhtNbranches ^ k := by
  have split := div_add_mod (n - start) (mhtNbranches ^ k)
  rw [mul_comm] at split
  rw [← spineStart_sub dvd le]
  unfold spineStart
  omega

theorem Spine.resumes {root : MhtNode Key Mac} (spine : Spine env hist old h root target)
    (covers : NodeCovers env (EntryCovers env hist h) h root old) (small : old.length < 2 ^ 32)
    (aligned : mhtNbranches ∣ old.length → mhtNbranches ^ h ∣ old.length) :
    Resumes env hist old target (fun k => if k ≤ h then spineStart old.length k else 0) := by
  refine ⟨by simp [spineStart, mod_one], fun k => ?_, fun k => ?_, fun k => ?_⟩
  · split
    · exact spineStart_dvd _ _
    · exact Nat.dvd_zero _
  · rcases lt_or_ge h (k + 1) with gt | le
    · simp [not_le.mpr gt]
    have coarse : old.length % mhtNbranches ^ k ≤ old.length % mhtNbranches ^ (k + 1) := by
      rw [← mod_mod_of_dvd old.length (Nat.pow_dvd_pow mhtNbranches (le_succ k))]
      exact mod_le _ _
    simp only [le, show k ≤ h by omega, if_true, spineStart]
    omega
  · rcases lt_trichotomy k h with lt | rfl | gt
    · simp only [le_of_lt lt, succ_le_of_lt lt]
      rcases spine.below k lt with ⟨dvd, none⟩ | ⟨-, node, target_eq, inner⟩
      · have finer : mhtNbranches ^ k ∣ old.length := Nat.dvd_trans (Nat.pow_dvd_pow _ (le_succ k)) dvd
        exact .inl ⟨none, by simp [spineStart, mod_eq_zero_of_dvd dvd, mod_eq_zero_of_dvd finer]⟩
      have start_dvd := spineStart_dvd old.length (k + 1)
      have start_le := spineStart_le old.length (k + 1)
      have finer : mhtNbranches ^ k ∣ spineStart old.length (k + 1) :=
        Nat.dvd_trans (Nat.pow_dvd_pow _ (le_succ k)) start_dvd
      have one : mhtNbranches ∣ spineStart old.length (k + 1) := dvd_of_pow_dvd (succ_pos k) start_dvd
      have complete := inner.numCompleteChildren_eq (by rw [length_drop]; omega) (by
        rw [length_drop, dvd_sub_iff_left start_le one, dvd_sub_iff_left start_le finer]
        intro dvd
        exact Nat.dvd_trans (Nat.pow_dvd_pow _ (le_of_lt lt)) (aligned dvd))
      rw [length_drop] at complete
      exact .inr ⟨node, _, target_eq, inner, complete, spineStart_add finer start_le⟩
    · simp only [le_refl, not_succ_le_self, if_false, zero_add]
      have whole := spineStart_add (Nat.dvd_zero (mhtNbranches ^ k)) (zero_le old.length)
      rw [zero_add] at whole
      exact .inr ⟨root, _, spine.top, covers, covers.numCompleteChildren_eq small aligned, whole⟩
    · exact .inl ⟨spine.above k gt, by simp [show ¬ k + 1 ≤ h by omega, show ¬ k ≤ h by omega]⟩

/-! ## Building a level -/

variable {previous : Option (PreviousBuild Key Mac)}

section Level

variable {new : List Bytes}

/-- The entries that take part in the build of a level cover everything from its start on. -/
theorem Resumes.allLevelEntries (resumes : Resumes env hist old target start) (total : Nat)
    (entries : Covers (EntryCovers env hist k) (mhtNbranches ^ k) es ((old ++ new).drop (start k))) :
    ∃ all, (LevelBuilder.mk es total (k + 1) (target (k + 1))).allLevelEntries = .ok all ∧
      Covers (EntryCovers env hist k) (mhtNbranches ^ k) all ((old ++ new).drop (start (k + 1))) := by
  rcases resumes.level k with ⟨none, same⟩ | ⟨node, c, target_eq, covers, complete, start_eq⟩
  · exact ⟨es, by rw [LevelBuilder.allLevelEntries, none], same ▸ entries⟩
  have le := resumes.start_le k
  obtain ⟨es', rfl, covers, few, -⟩ := covers
  have within : c * mhtNbranches ^ k ≤ (old.drop (start (k + 1))).length := by
    rw [length_drop]; omega
  have taken := covers.take (mhtNbranches_pow_pos k) c
  have enough : c ≤ es'.length := by
    have length_eq := taken.length_of_mul (mhtNbranches_pow_pos k) (by rw [length_take, min_eq_left within])
    rw [length_take] at length_eq
    omega
  refine ⟨es'.take c ++ es, ?_, ?_⟩
  · rw [LevelBuilder.allLevelEntries, target_eq]
    simp only [complete, bind, Except.bind, ofEntries_entries few, take_append_of_le_length enough]
  have front : (old.drop (start (k + 1))).take (c * mhtNbranches ^ k) =
      ((old ++ new).drop (start (k + 1))).take (c * mhtNbranches ^ k) := by
    rw [drop_append_of_le_length (by omega), take_append_of_le_length within]
  rw [front] at taken
  rw [start_eq, ← drop_drop] at entries
  refine taken.append entries (mhtNbranches_pow_pos k) ?_
  rw [length_drop] at within ⊢
  rw [length_append]
  omega

variable {α : Type}

theorem length_chunksOf (pos : 0 < n) (l : List α) (i : Nat) : i < (chunksOf n l).length ↔ i * n < l.length := by
  rw [chunksOf, length_map, length_range, ← succ_le_iff, le_div_iff_mul_le pos, succ_mul]
  omega

theorem getElem?_chunksOf {i : Nat} {l c : List α} (at_i : (chunksOf n l)[i]? = some c) : c = piece n i l := by
  obtain ⟨inside, rfl⟩ := List.getElem?_eq_some_iff.mp at_i
  simp [chunksOf, piece]

/-- The number of blocks that `build_last_node` gives to the last node. -/
theorem length_lastPiece {w i start : Nat} (dvd : w ∣ start) (le : start ≤ ds.length)
    (begins : i * w < (ds.drop start).length) (ends : (ds.drop start).length ≤ (i + 1) * w) :
    (if ds.length % w = 0 then w else ds.length % w) = (piece w i (ds.drop start)).length := by
  obtain ⟨q, rfl⟩ := dvd
  rw [Nat.add_mul] at ends
  rw [length_piece]
  rw [length_drop] at begins ends ⊢
  have mod : ds.length % w = (ds.length - w * q - i * w) % w := by
    rw [mul_comm i w, sub_mul_mod (by rw [mul_comm w i]; omega), sub_mul_mod le]
  have within : ds.length - w * q - i * w ≤ w := by omega
  rw [mod, min_eq_right within]
  rcases lt_or_eq_of_le within with lt | full
  · rw [mod_eq_of_lt lt, if_neg (by omega)]
  · rw [full, mod_self, if_pos rfl]

/-- The new nodes of a level cover everything from its start on. -/
theorem Resumes.build (resumes : Resumes env hist old target start)
    (entries : Covers (EntryCovers env hist k) (mhtNbranches ^ k) es ((old ++ new).drop (start k))) :
    ∃ nodes, LevelBuilder.build env ⟨es, (old ++ new).length, k + 1, target (k + 1)⟩ = .ok nodes ∧
      Covers (NodeCovers env (EntryCovers env hist k) k) (mhtNbranches ^ (k + 1)) nodes
        ((old ++ new).drop (start (k + 1))) := by
  obtain ⟨all, ok, covers⟩ := resumes.allLevelEntries (old ++ new).length entries
  have unit := mhtNbranches_pow_pos k
  have pow : mhtNbranches ^ (k + 1) = mhtNbranches * mhtNbranches ^ k := by
    rw [pow_succ, mul_comm]
  rw [LevelBuilder.build, ok]
  refine ⟨_, rfl, fun i => ?_, fun i node at_i => ?_⟩
  · rw [length_map, length_zipIdx, length_chunksOf mhtNbranches_pos, pow, ← mul_assoc]
    exact covers.count _
  obtain ⟨⟨c, j⟩, at_j, rfl⟩ := map_eq_some_iff.mp (getElem?_map.symm.trans at_i)
  obtain ⟨c', at_c, pair⟩ := map_eq_some_iff.mp (getElem?_zipIdx.symm.trans at_j)
  cases pair
  obtain rfl := getElem?_chunksOf at_c
  have group := covers.group unit mhtNbranches i
  have inside := (length_chunksOf mhtNbranches_pos all i).mp (List.getElem?_eq_some_iff.mp at_c).1
  have begins := (covers.count _).mp inside
  rw [← pow] at group
  rw [mul_assoc, ← pow] at begins
  refine ⟨piece mhtNbranches i all, ?_, group, ?_, ?_⟩
  · have next := length_chunksOf mhtNbranches_pos all (i + 1)
    rw [covers.count, mul_assoc, ← pow] at next
    simp only [zero_add]
    split
    next last =>
      have ends := next.not.mp (by omega)
      have le : start (k + 1) ≤ (old ++ new).length := by
        have := resumes.start_le (k + 1)
        rw [length_append]
        omega
      have count := length_lastPiece (resumes.dvd (k + 1)) le begins (not_lt.mp ends)
      exact congrArg (ofEntries env (k + 1) · (piece mhtNbranches i all)) count
    next more =>
      have full := next.mp (by have := (List.getElem?_eq_some_iff.mp at_c).1; omega)
      rw [length_piece_of_le (le_of_lt full), maxNumDataNodes]
  · rw [length_piece]; exact min_le_left _ _
  · rw [length_piece]
    have := mhtNbranches_pow_pos (k + 1)
    omega

/-- A build goes up to a node that covers the old and the new blocks. -/
theorem StoredHistory.buildHierarchy {above : Nat} (stored : StoredHistory env hist s)
    (resumes : Resumes env hist old (fun height => previous.bind (·.targetNode height)) start)
    (entries : Covers (EntryCovers env hist k) (mhtNbranches ^ k) es ((old ++ new).drop (start k)))
    (some : start (k + 1) < (old ++ new).length) (top : start (k + 1 + above) = 0)
    (fits : (old ++ new).length ≤ mhtNbranches ^ (k + 1 + above)) :
    ∃ more root s', (buildHierarchy env previous (old ++ new).length above es (k + 1)).run s = .ok root s' ∧
      StoredHistory env (hist ++ more) s' ∧
      NodeCovers env (EntryCovers env (hist ++ more) (k + above)) (k + above) root (old ++ new) := by
  obtain ⟨nodes, built, covers⟩ := resumes.build entries
  have lifted : (liftRes (build env ⟨es, (old ++ new).length, k + 1,
      previous.bind (·.targetNode (k + 1))⟩) : StoreM κ _).run s = .ok nodes s := by
    rw [built]
    rfl
  have nonempty : 0 < nodes.length := (covers.count 0).mpr (by rw [length_drop]; omega)
  induction above generalizing k es hist s nodes with
  | zero =>
    rw [add_zero] at top fits
    rw [top, drop_zero] at covers
    -- one node is enough, so that it is the root
    obtain ⟨root, rfl⟩ : ∃ root, nodes = [root] := by
      have one := (covers.count 1).not.mpr (by omega)
      exact length_eq_one_iff.mp (by omega)
    have all := covers.each 0 root rfl
    rw [piece, Nat.zero_mul, drop_zero, take_of_length_le fits] at all
    refine ⟨[], root, s, ?_, by rwa [append_nil], by rwa [append_nil]⟩
    rw [buildHierarchy, run_bind lifted]
    rfl
  | succ above ih =>
    obtain ⟨more, es', s1, appended, stored1, names⟩ := stored.appendMhtNodes nonempty
    have entries' := covers_of_names covers names
    have resumes' := resumes.append more
    have some' : start (k + 1 + 1) < (old ++ new).length := lt_of_le_of_lt (resumes.le (k + 1)) some
    obtain ⟨nodes', built', covers'⟩ := resumes'.build entries'
    obtain ⟨more', root, s2, rest, stored2, all⟩ := ih stored1 resumes' entries' some'
      (by rw [← top]; congr 1; omega) (by rw [add_assoc _ 1, add_comm 1]; exact fits) nodes'
      built' covers' (by rw [built']; rfl) ((covers'.count 0).mpr (by rw [length_drop]; omega))
    refine ⟨more ++ more', root, s2, ?_, by rwa [← append_assoc], ?_⟩
    · rw [buildHierarchy, run_bind lifted]
      rw [run_bind appended, rest]
    · rwa [← append_assoc, add_comm above, ← add_assoc]

end Level

/-! ## A whole build -/

variable (env hist) in
/-- The tree with the given root has the given blocks. -/
def Tree (root : Option (MhtNode Key Mac)) (ds : List Bytes) : Prop :=
  match root with
  | none => ds = []
  | some root => ∃ h, NeedsHeight ds.length h ∧ NodeCovers env (EntryCovers env hist h) h root ds

variable {root : Option (MhtNode Key Mac)}

theorem Tree.append (tree : Tree env hist root ds) (more : History Key Iv Mac) : Tree env (hist ++ more) root ds := by
  cases root with
  | none => exact tree
  | some root =>
    obtain ⟨h, needs, covers⟩ := tree
    exact ⟨h, needs, covers.mono fun _ _ inner => inner.append more⟩

/-- No entry for the lowest level of the new tree: nothing was added, and the lowest level of a
previous tree of two or more levels is complete. -/
def NothingToBuild (old new : List Bytes) : Prop :=
  new = [] ∧ mhtNbranches ∣ old.length ∧ mhtNbranches < old.length

section Build

variable {new : List Bytes}

theorem StoredHistory.buildFrom (stored : StoredHistory env hist s) (previous : Option (PreviousBuild Key Mac))
    (resumes : Resumes env hist old (fun height => previous.bind (·.targetNode height)) start)
    (entries : Covers (EntryCovers env hist 0) 1 es new) (some : start 1 < (old ++ new).length)
    (needs : NeedsHeight (old ++ new).length h) (top : start (h + 1) = 0)
    (count : (previous.map (·.root.numDataNodes)).getD 0 = old.length) :
    ∃ more root s', (TreeBuilder.build env previous es).run s = .ok root s' ∧
      StoredHistory env (hist ++ more) s' ∧ Tree env (hist ++ more) (.some root) (old ++ new) := by
  have new_length : es.length = new.length := entries.length_of_mul Nat.one_pos (mul_one _).symm
  have total : es.length + (previous.map (·.root.numDataNodes)).getD 0 = (old ++ new).length := by
    rw [count, new_length, length_append, add_comm]
  have lowest : Covers (EntryCovers env hist 0) (mhtNbranches ^ 0) es ((old ++ new).drop (start 0)) := by
    rwa [pow_zero, resumes.zero, drop_left]
  have top' : start (0 + 1 + h) = 0 := by rw [← top]; congr 1; omega
  have fits : (old ++ new).length ≤ mhtNbranches ^ (0 + 1 + h) := by
    rw [add_comm]; exact needs.1
  obtain ⟨more, root, s', built, stored', covers⟩ := stored.buildHierarchy resumes lowest some top' fits
  refine ⟨more, root, s', ?_, stored', h, needs, by simpa using covers⟩
  have height : (liftRes (calcTargetHeight (old ++ new).length)).run s = .ok (h + 1) s := by
    rw [calcTargetHeight_eq (by omega) needs]
    rfl
  simp only [TreeBuilder.build, total]
  rw [run_bind height]
  exact built

theorem Tree.count (tree : Tree env hist root old) (small : old.length < 2 ^ 32) :
    (root.map (·.numDataNodes)).getD 0 = old.length := by
  cases root with
  | none => simp [show old = [] from tree]
  | some root =>
    obtain ⟨h, -, covers⟩ := tree
    exact covers.numDataNodes_eq small

variable (stored : StoredHistory env hist s) (tree : Tree env hist root old)
include stored tree

/-- A build gives a tree of the old and the new blocks. -/
theorem StoredHistory.build (entries : Covers (EntryCovers env hist 0) 1 es new) (nonempty : 0 < (old ++ new).length)
    (small : (old ++ new).length < 2 ^ 32) (rebuildable : Rebuildable old.length)
    (something : ¬ NothingToBuild old new) :
    ∃ more root' previous s1 s', (previousBuiltRoot env root).run s = .ok previous s1 ∧
      (build env previous es).run s1 = .ok root' s' ∧
      StoredHistory env (hist ++ more) s' ∧ Tree env (hist ++ more) (some root') (old ++ new) := by
  obtain ⟨h, needs, -⟩ := calcTargetHeight_run nonempty
  cases root with
  | none =>
    obtain rfl : old = [] := tree
    obtain ⟨more, root, s', built, stored', tree'⟩ :=
      stored.buildFrom none Resumes.nil entries nonempty needs rfl rfl
    exact ⟨more, root, none, s, s', rfl, built, stored', tree'⟩
  | some root =>
    obtain ⟨h0, needs0, covers⟩ := tree
    rw [length_append] at small
    obtain ⟨p, s1, previous, stored1, rfl, spine⟩ := stored.previousBuild covers (by omega)
    have resumes := spine.resumes covers (by omega) (rebuildable h0 needs0)
    have higher : h0 ≤ h := needs0.mono needs (by rw [length_append]; omega)
    have begins : (if 1 ≤ h0 then spineStart old.length 1 else 0) < (old ++ new).length := by
      have start_le := spineStart_le old.length 1
      split
      next two =>
        rcases Nat.eq_zero_or_pos new.length with none | added
        · have more : mhtNbranches < old.length := by
            have := le_self_pow (ne_of_gt two) mhtNbranches
            have := needs0.2
            omega
          have rest : 0 < old.length % mhtNbranches := Nat.pos_of_ne_zero fun zero =>
            something ⟨length_eq_zero_iff.mp none, dvd_of_mod_eq_zero zero, more⟩
          rw [spineStart, pow_one, length_append]
          omega
        · rw [length_append]
          omega
      next => exact nonempty
    obtain ⟨more, root, s', built, stored', tree'⟩ :=
      stored1.buildFrom (some p) resumes entries begins needs (if_neg (by omega)) (covers.numDataNodes_eq (by omega))
    exact ⟨more, root, some p, s1, s', previous, built, stored', tree'⟩

/-- Without an entry for the lowest level the build fails, and has written nothing. -/
theorem StoredHistory.build_nothing (small : old.length < 2 ^ 32) (nothing : NothingToBuild old []) :
    ∃ previous s1, (previousBuiltRoot env root).run s = .ok previous s1 ∧
      (TreeBuilder.build env previous []).run s1 = .error (.error .invalidArgs
        "num_blocks must be greater than 0 for allocation") s1 ∧ StoredHistory env hist s1 := by
  obtain ⟨-, dvd, more⟩ := nothing
  cases root with
  | none =>
    obtain rfl : old = [] := tree
    exact absurd more (not_lt_zero _)
  | some root =>
    obtain ⟨h, needs, covers⟩ := tree
    obtain ⟨p, s1, previous, stored1, rfl, spine⟩ := stored.previousBuild covers small
    obtain ⟨h, rfl⟩ : ∃ k, h = k + 1 := by
      cases h with
      | zero =>
        have := needs.1
        rw [pow_one] at this
        omega
      | succ h => exact ⟨h, rfl⟩
    refine ⟨some p, s1, previous, ?_, stored1⟩
    have resting : p.targetNode 1 = none := by
      rcases spine.below 0 (succ_pos h) with ⟨-, none⟩ | ⟨ndvd, -⟩
      · exact none
      · rw [pow_one] at ndvd
        exact absurd dvd ndvd
    have height : (liftRes (calcTargetHeight old.length)).run s1 = .ok (h + 1 + 1) s1 := by
      rw [calcTargetHeight_eq (by omega) needs]
      rfl
    simp only [TreeBuilder.build, length_nil, zero_add, map_some, getD_some, covers.numDataNodes_eq small]
    rw [run_bind height, TreeBuilder.buildHierarchy]
    have none : LevelBuilder.build env ⟨[], old.length, 1, p.targetNode 1⟩ = .ok [] := by
      have pieces : chunksOf mhtNbranches ([] : List (MhtNodeEntry Key Mac)) = [] := by
        have := (length_chunksOf mhtNbranches_pos ([] : List (MhtNodeEntry Key Mac)) 0).not.mpr (by simp)
        exact length_eq_zero_iff.mp (by omega)
      rw [resting, LevelBuilder.build, LevelBuilder.allLevelEntries]
      simp only [bind, Except.bind, pieces, zipIdx_nil, map_nil]
    simp only [bind_some, none]
    rfl

end Build

/-! ## A build that goes wrong

A tree of `102² + 102` blocks has a last node at height two with one child, which is complete. At
height three the number of blocks is a multiple of 102, so the last child counts as complete although
it is not. It stays in place, and its new version comes after it. -/

variable {all : List (MhtNodeEntry Key Mac)}

section Stale

theorem mhtNbranches_eq : mhtNbranches = 102 := by unfold mhtNbranches; rfl

variable (env) in
theorem LevelBuilder.build_one {b : LevelBuilder Key Mac} (entries : b.allLevelEntries = .ok all)
    (some : 0 < all.length) (few : all.length ≤ mhtNbranches) : b.build env = .ok [b.buildLastNode env all] := by
  have first := (length_chunksOf mhtNbranches_pos all 0).mpr (by omega)
  have second := (length_chunksOf mhtNbranches_pos all 1).not.mpr (by omega)
  obtain ⟨c, one⟩ := length_eq_one_iff.mp (show (chunksOf mhtNbranches all).length = 1 by omega)
  have c_eq : c = piece mhtNbranches 0 all := getElem?_chunksOf (by rw [one]; rfl)
  rw [piece, Nat.zero_mul, drop_zero, take_of_length_le few] at c_eq
  rw [build, entries]
  simp [bind, Except.bind, one, c_eq]

/-- One level of a build in which a single node is made. -/
theorem StoredHistory.buildHierarchy_one (stored : StoredHistory env hist s) {total height : Nat} (above : Nat)
    (entries : (LevelBuilder.mk es total height (previous.bind (·.targetNode height))).allLevelEntries = .ok all)
    (some : 0 < all.length) (few : all.length ≤ mhtNbranches) :
    ∃ more e s', (TreeBuilder.buildHierarchy env previous total (above + 1) es height).run s =
        (TreeBuilder.buildHierarchy env previous total above [e] (height + 1)).run s' ∧
      StoredHistory env (hist ++ more) s' := by
  have built := build_one env entries some few
  generalize buildLastNode env _ all = node at built
  have one : 0 < [node].length := Nat.one_pos
  obtain ⟨more, es', s', appended, stored', names⟩ := stored.appendMhtNodes one
  obtain ⟨e, rfl⟩ := length_eq_one_iff.mp (names.length_eq.symm.trans rfl)
  refine ⟨more, e, s', ?_, stored'⟩
  rw [TreeBuilder.buildHierarchy, built, run_liftRes_bind]
  rw [run_bind appended]

/-- A multiple of the number of branches makes all valid children count as complete. -/
theorem NodeCovers.numCompleteChildren_of_dvd (covers : NodeCovers env child h node ds) (small : ds.length < 2 ^ 32)
    (dvd : mhtNbranches ∣ ds.length) (begins : n * mhtNbranches ^ h < ds.length)
    (ends : ds.length ≤ (n + 1) * mhtNbranches ^ h) : node.numCompleteChildren = .ok (n + 1) := by
  rw [numCompleteChildren, covers.numDataNodes_eq small, if_pos (.inl (mod_eq_zero_of_dvd dvd))]
  obtain ⟨es, rfl, covers, few, -⟩ := covers
  have lower := (covers.count n).mpr begins
  have upper := (covers.count (n + 1)).not.mpr (not_lt.mpr ends)
  rw [ofEntries_numValidEntries few]
  exact congrArg _ (by omega)

variable (env) in
/-- The root that such a build makes: it keeps both old children and has a third one. -/
def staleRoot (old : List Bytes) (root : MhtNode Key Mac) (e : MhtNodeEntry Key Mac) : MhtNode Key Mac :=
  ofEntries env 3 (old.length + 1) (root.entries.take 2 ++ [e])

variable {root : MhtNode Key Mac}

theorem StoredHistory.build_stale (stored : StoredHistory env hist s)
    (covers : NodeCovers env (EntryCovers env hist 2) 2 root old) (count : old.length = mhtNbranches ^ 2 + mhtNbranches)
    (e : MhtNodeEntry Key Mac) :
    ∃ more previous e' s1 s', (previousBuiltRoot env (some root)).run s = .ok previous s1 ∧
      (TreeBuilder.build env previous [e]).run s1 = .ok (staleRoot env old root e') s' ∧
      StoredHistory env (hist ++ more) s' := by
  have size : old.length = 10506 := by rw [count, mhtNbranches_eq]; rfl
  have small : old.length < 2 ^ 32 := by omega
  obtain ⟨p, s1, previous, stored1, rfl, spine⟩ := stored.previousBuild covers small
  have lowest : p.targetNode 1 = none := by
    rcases spine.below 0 (by omega) with ⟨-, none⟩ | ⟨ndvd, -⟩
    · exact none
    · rw [size, mhtNbranches_eq] at ndvd
      exact absurd (by decide) ndvd
  obtain ⟨node, middle, inner⟩ : ∃ node, p.targetNode 2 = some node ∧
      NodeCovers env (EntryCovers env hist 1) 1 node (old.drop (spineStart old.length 2)) := by
    rcases spine.below 1 (by omega) with ⟨dvd, -⟩ | ⟨-, node, middle, inner⟩
    · rw [size, mhtNbranches_eq] at dvd
      exact absurd dvd (by decide)
    · exact ⟨node, middle, inner⟩
  have inner_size : (old.drop (spineStart old.length 2)).length = 102 := by
    rw [length_drop, spineStart, size, mhtNbranches_eq]
    rfl
  have complete2 : node.numCompleteChildren = .ok 1 :=
    inner.numCompleteChildren_of_dvd (by omega) ⟨1, by rw [inner_size, mhtNbranches_eq]⟩
      (by rw [inner_size, mhtNbranches_eq]; decide)
      (by rw [inner_size, mhtNbranches_eq]; decide)
  have complete3 : p.root.numCompleteChildren = .ok 2 :=
    covers.numCompleteChildren_of_dvd small (by rw [size, mhtNbranches_eq]; decide)
      (by rw [size, mhtNbranches_eq]; decide) (by rw [size, mhtNbranches_eq]; decide)
  have height : calcTargetHeight (1 + old.length) = .ok (2 + 1) :=
    calcTargetHeight_eq (by omega) (by rw [NeedsHeight, size, mhtNbranches_eq]; decide)
  have entries1 : (LevelBuilder.mk [e] (1 + old.length) 1 ((some p).bind (·.targetNode 1))).allLevelEntries =
      .ok [e] := by
    simp [LevelBuilder.allLevelEntries, lowest]
  obtain ⟨more1, e1, s2, level1, stored2⟩ := stored1.buildHierarchy_one 1 entries1 Nat.one_pos mhtNbranches_pos
  have entries2 : (LevelBuilder.mk [e1] (1 + old.length) 2
      ((some p).bind (·.targetNode 2))).allLevelEntries = .ok (node.entries.take 1 ++ [e1]) := by
    simp [LevelBuilder.allLevelEntries, middle, complete2, bind, Except.bind]
  have few {k : Nat} (small : k ≤ 2) (es : List (MhtNodeEntry Key Mac)) e :
      (es.take k ++ [e]).length ≤ mhtNbranches := by
    have := length_take_le k es
    rw [length_append, length_singleton, mhtNbranches_eq]
    omega
  obtain ⟨more2, e2, s3, level2, stored3⟩ := stored2.buildHierarchy_one 0 entries2 (by simp) (few (by decide) _ _)
  have entries3 : (LevelBuilder.mk [e2] (1 + old.length) 3
      ((some p).bind (·.targetNode 3))).allLevelEntries = .ok (p.root.entries.take 2 ++ [e2]) := by
    simp [LevelBuilder.allLevelEntries, spine.top, complete3, bind, Except.bind]
  have level3 := build_one env entries3 (by simp) (few (by decide) _ _)
  have last : buildLastNode env ⟨[e2], 1 + old.length, 3, (some p).bind (·.targetNode 3)⟩
      (p.root.entries.take 2 ++ [e2]) =
      staleRoot env old p.root e2 := by
    simp only [staleRoot, buildLastNode, maxNumDataNodes, size, mhtNbranches_eq]
    rfl
  refine ⟨more1 ++ more2, some p, e2, s1, s3, previous, ?_, by rwa [← append_assoc]⟩
  simp only [TreeBuilder.build, length_singleton, map_some, getD_some, covers.numDataNodes_eq small, height]
  rw [run_liftRes_bind, Nat.add_sub_cancel, level1, level2, TreeBuilder.buildHierarchy, level3, run_liftRes_bind, last]
  rfl

/-- One step of a search, above the lowest level. -/
theorem searchHierarchy_above (h skipped pos needed : Nat) {ctx : SearchCtx}
    (skips : ctx.pos / mhtNbranches ^ (h + 1) = skipped) (offset : ctx.pos - skipped * mhtNbranches ^ (h + 1) = pos)
    (needs : divCeil (ctx.num + pos) (mhtNbranches ^ (h + 1)) = needed) : searchHierarchy env (h + 1 + 1) nodes ctx =
      (readMhtNodes env (((nodes.flatMap (·.entries)).drop skipped).take needed) >>= fun next =>
        searchHierarchy env (h + 1) next { ctx with pos := pos }) := by
  have inner : isLowestLevel (h + 1 + 1) = false := by simp [isLowestLevel]
  rw [searchHierarchy]
  simp only [maxNumDataNodes, inner, Bool.false_eq_true, if_false, skips, offset, needs]

/-- The search for the new block goes into the old version of the last child, and ends at an entry
that was never set. -/
theorem StoredHistory.search_stale (stored : StoredHistory env hist s)
    (covers : NodeCovers env (EntryCovers env hist 2) 2 root old) (count : old.length = mhtNbranches ^ 2 + mhtNbranches)
    (e : MhtNodeEntry Key Mac) (block : Bytes) : ∃ s' ctx, StoredHistory env hist s' ∧
      (searchHierarchy env 3 [staleRoot env old root e] (.new old.length [block])).run s =
      (readMhtNodes env [env.uninit] >>= fun nodes => searchHierarchy env 1 nodes ctx).run s' := by
  have size : old.length = 10506 := by rw [count, mhtNbranches_eq]; rfl
  obtain ⟨es, rfl, covers, few, -⟩ := covers
  obtain ⟨a, b, rfl⟩ : ∃ a b, es = [a, b] := by
    have lower := (covers.count 1).mpr (by rw [size, mhtNbranches_eq]; decide)
    have upper := (covers.count 2).not.mpr (by rw [size, mhtNbranches_eq]; decide)
    exact length_eq_two.mp (by omega)
  -- the old child has one entry
  obtain ⟨node, at_p, mac, es', rfl, inner, few', -⟩ := covers.each 1 b rfl
  have rest : (piece (mhtNbranches ^ 2) 1 old).length = 102 := by
    rw [length_piece, size, mhtNbranches_eq]; decide
  obtain ⟨c, rfl⟩ : ∃ c, es' = [c] := length_eq_one_iff.mp (inner.length_of_mul (mhtNbranches_pow_pos 1) (by
      rw [rest, mhtNbranches_eq]
      rfl))
  obtain ⟨s', read, stored'⟩ := stored.readMhtNode at_p
  rw [← mac] at read
  have reads : (readMhtNodes env [b]).run s =
      .ok [ofEntries env (1 + 1) (piece (mhtNbranches ^ 2) 1 old).length [c]] s' := by
    rw [readMhtNodes, run_bind read]
    rfl
  have take : (ofEntries env (2 + 1) old.length [a, b]).entries.take 2 ++ [e] = [a, b, e] := by
    rw [ofEntries_entries few]
    rfl
  have three : [a, b, e].length ≤ mhtNbranches := by
    rw [mhtNbranches_eq]
    exact (by decide : 3 ≤ 102)
  have outer : (([ofEntries env 3 (old.length + 1) [a, b, e]].flatMap (·.entries)).drop 1).take 1 = [b] := by
    rw [flatMap_singleton, ofEntries_entries three]
    rfl
  have inner_entries : ∀ n, (([ofEntries env (1 + 1) n [c]].flatMap (·.entries)).drop 1).take 1 = [env.uninit] := by
    intro n
    rw [flatMap_singleton, ofEntries_entries few', mhtNbranches_eq]
    rfl
  rw [staleRoot, take, searchHierarchy_above 1 1 102 1 ?_ ?_ ?_, outer, run_bind reads,
    searchHierarchy_above 0 1 0 1 ?_ ?_ ?_, inner_entries]
  · exact ⟨s', _, stored', rfl⟩
  all_goals simp [SearchCtx.new, size, mhtNbranches_eq, divCeil]

end Stale

end OmegaOsx.MlsDisk
