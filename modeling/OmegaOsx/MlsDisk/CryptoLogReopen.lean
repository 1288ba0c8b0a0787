import OmegaOsx.MlsDisk.MhtBuild
import OmegaOsx.MlsDisk.Symbolic
import OmegaOsx.Lib.Run
import Mathlib.Logic.Equiv.List

/-!
# Reopening a `CryptoLog`

`LogInv` relates a log to the blocks appended to it: those in the tree, those whose entries are
queued, and those queued themselves. A call keeps it if the tree is only extended when the number of
its blocks allows it (`SafeCall`).
-/

namespace OmegaOsx.MlsDisk

open Pieces AppendDataBuf Mht MhtStorage List

variable {κ Key Iv Mac : Type} (env : MhtEnv κ Key Iv Mac) {root : MhtNode Key Mac} {s : MhtStorage κ}

namespace CryptoLog

variable (m : Mht κ Key Iv Mac)

/-- A call that returned, possibly with an error. -/
def Returns (op : Op) (m' : Mht κ Key Iv Mac) : Prop :=
  (exec env op).run m = .ok ⟨⟩ m' ∨ ∃ errno msg, (exec env op).run m = .error (.error errno msg) m'

/-- The number of blocks in the tree. -/
def built : Nat := (m.rootNode.map (·.numDataNodes)).getD 0

/-- The append makes the entry queue full, which builds the tree. -/
def Fills (blocks : List Bytes) : Prop :=
  let queued := m.dataBuf.nodeQueue.length + blocks.length
  m.dataBuf.entryQueueCap ≤
    m.dataBuf.entryQueue.length + if m.dataBuf.nodeQueueCap ≤ queued then queued else 0

/-- The condition on a call, in the state before it. -/
def SafeCall : Op → Prop
  | .append blocks =>
    m.totalDataNodes + blocks.length < 2 ^ 32 ∧ (Fills m blocks → Rebuildable (built m))
  | .flush => 0 < m.totalDataNodes ∧ (0 < m.dataBuf.numAppend → Rebuildable (built m))

def SafeStep (op : Op) (m' : Mht κ Key Iv Mac) : Prop :=
  Returns env m op m' ∧ SafeCall m op

def Op.blocks : Op → List Bytes
  | .append blocks => blocks
  | .flush => []

/-- The blocks that the calls append. -/
def appended (ops : List Op) : List Bytes := ops.flatMap Op.blocks

/-! ## The invariant -/

/-- `old` is in the tree and `queued` are the blocks of the entry queue. -/
structure LogInv (hist : History Key Iv Mac) (old queued : List Bytes) (m : Mht κ Key Iv Mac) :
    Prop where
  stored : StoredHistory env hist m.storage
  tree : Tree env hist m.rootNode old
  named : ∀ info node, m.root = some (info, node) →
    hist[info.pos]? = some (.node node m.rootKey info.iv) ∧ info.mac = (sealNode env node m.rootKey info.iv).2
  entries : Covers (EntryCovers env hist 0) 1 m.dataBuf.entryQueue queued
  start : m.dataBuf.startPos = old.length
  small : old.length + queued.length + m.dataBuf.nodeQueue.length < 2 ^ 32

variable {env} {hist : History Key Iv Mac} {old queued : List Bytes} {m m' : Mht κ Key Iv Mac}

section

variable (inv : LogInv env hist old queued m)

include inv

theorem LogInv.length_queued : m.dataBuf.entryQueue.length = queued.length :=
  inv.entries.length_of_mul one_pos (mul_one _).symm

theorem LogInv.built_eq : built m = old.length := inv.tree.count (by have := inv.small; omega)

theorem LogInv.total_eq : m.totalDataNodes = (old ++ queued ++ m.dataBuf.nodeQueue).length := by
  have count := inv.built_eq
  unfold built at count
  rw [totalDataNodes, numAppend, inv.length_queued]
  simp only [length_append]
  omega

theorem LogInv.numAppend_eq : m.dataBuf.numAppend = (queued ++ m.dataBuf.nodeQueue).length := by
  rw [numAppend, inv.length_queued, length_append, add_comm]

/-- What a flush cannot build, in terms of the log. -/
theorem LogInv.nothing_iff : NothingToBuild old (queued ++ m.dataBuf.nodeQueue) ↔
    m.dataBuf.numAppend = 0 ∧ mhtNbranches ∣ built m ∧ mhtNbranches < built m := by
  rw [inv.built_eq, inv.numAppend_eq, length_eq_zero_iff]
  rfl

theorem LogInv.something (pending : 0 < m.dataBuf.numAppend) : ¬ NothingToBuild old (queued ++ m.dataBuf.nodeQueue) :=
  fun nothing => pending.ne' (inv.nothing_iff.mp nothing).1

theorem LogInv.rooted (some : 0 < old.length) : ∃ info root, m.root = .some (info, root) := by
  cases rooted : m.root with
  | some pair => exact ⟨pair.1, pair.2, rfl⟩
  | none =>
    have tree := inv.tree
    rw [rootNode, rooted] at tree
    rw [show old = [] from tree] at some
    exact absurd some (lt_irrefl 0)

end

theorem onStorage_run {α : Type} {x : StoreM κ α} {a : α} (h : x.run m.storage = .ok a s) :
    (onStorage x).run m = .ok a { m with storage := s } := by
  simp only [EStateM.run, onStorage] at h ⊢
  rw [h]

theorem onStorage_run_error {α : Type} {x : StoreM κ α} {e : Fault} (h : x.run m.storage = .error e s) :
    (onStorage x).run m = .error e { m with storage := s } := by
  simp only [EStateM.run, onStorage] at h ⊢
  rw [h]

/-! ## Flushing the queues -/

/-- The node queue goes to the entry queue. -/
theorem LogInv.flushNodeQueue (inv : LogInv env hist old queued m) :
    ∃ more buf s, (m.dataBuf.flushNodeQueue env).run m.storage = .ok buf s ∧
      LogInv env (hist ++ more) old (queued ++ m.dataBuf.nodeQueue)
        { m with dataBuf := buf, storage := s } ∧
      buf.nodeQueue = [] ∧ buf.entryQueueCap = m.dataBuf.entryQueueCap ∧
      buf.nodeQueueCap = m.dataBuf.nodeQueueCap := by
  obtain ⟨more, es, s, ok, stored, entries⟩ := inv.stored.appendDataNodes m.dataBuf.nodeQueue
  have small := inv.small
  have front : (queued ++ m.dataBuf.nodeQueue).take (queued.length * 1) = queued := by simp
  have back : (queued ++ m.dataBuf.nodeQueue).drop (queued.length * 1) = m.dataBuf.nodeQueue := by simp
  have old_entries := inv.entries.mono fun _ _ covers => covers.append more
  rw [AppendDataBuf.flushNodeQueue, run_bind ok]
  refine ⟨more, _, s, rfl, ⟨stored, inv.tree.append more, ?_, ?_, inv.start, ?_⟩, rfl, rfl, rfl⟩
  · intro info node root
    obtain ⟨at_p, mac⟩ := inv.named info node root
    exact ⟨by rw [getElem?_append_left (List.getElem?_eq_some_iff.mp at_p).1, at_p], mac⟩
  · exact Covers.append (front.symm ▸ old_entries) (back.symm ▸ entries) one_pos (by simp)
  · simp only [length_append, length_nil]
    omega

section

variable (stored : StoredHistory env hist m.storage) (tree : Tree env hist m.rootNode old)
include stored tree

/-- A build writes a new root, which covers the old and the new blocks. -/
theorem doBuild_run
    {new : List Bytes} {es : List (MhtNodeEntry Key Mac)}
    (entries : Covers (EntryCovers env hist 0) 1 es new) (nonempty : 0 < (old ++ new).length)
    (small : (old ++ new).length < 2 ^ 32) (rebuildable : Rebuildable old.length)
    (something : ¬ NothingToBuild old new) :
    ∃ more info root s', (doBuild env es).run m = .ok ⟨⟩ { m with root := some (info, root), storage := s' } ∧
      StoredHistory env (hist ++ more) s' ∧ Tree env (hist ++ more) (some root) (old ++ new) ∧
      (hist ++ more)[info.pos]? = some (.node root m.rootKey info.iv) ∧
      info.mac = (sealNode env root m.rootKey info.iv).2 := by
  obtain ⟨more, root, previous, s1, s2, resumed, builds, stored2, tree2⟩ :=
    stored.build tree entries nonempty small rebuildable something
  obtain ⟨info, s3, written, stored3, pos, mac⟩ := stored2.appendRootMhtNode m.rootKey root
  refine ⟨more ++ [.node root m.rootKey info.iv], info, root, s3, ?_, ?_, ?_, ?_, mac⟩
  · rw [doBuild, run_get_bind, run_bind (onStorage_run resumed), run_bind (onStorage_run builds),
      run_bind (onStorage_run written)]
    rfl
  · rwa [← append_assoc]
  · rw [← append_assoc]
    exact tree2.append _
  · rw [pos]
    simp

theorem doBuild_nothing (small : old.length < 2 ^ 32) (nothing : NothingToBuild old []) :
    ∃ s', (doBuild env []).run m = .error (.error .invalidArgs
        "num_blocks must be greater than 0 for allocation") { m with storage := s' } ∧
      StoredHistory env hist s' := by
  obtain ⟨previous, s1, resumed, fails, stored1⟩ := stored.build_nothing tree small nothing
  refine ⟨s1, ?_, stored1⟩
  have resumed' : (onStorage (TreeBuilder.previousBuiltRoot env m.rootNode)).run m =
      .ok previous { m with storage := s1 } := onStorage_run resumed
  rw [doBuild, run_get_bind, run_bind resumed', run_bind_error (onStorage_run_error fails)]

end

/-- Without new blocks the tree is built again from complete children only. -/
theorem rebuildable_of_something (something : ¬ NothingToBuild old []) : Rebuildable old.length := by
  intro h needs dvd
  have short : ¬ mhtNbranches < old.length := fun more => something ⟨rfl, dvd, more⟩
  obtain rfl : h = 0 := by
    by_contra ne
    have := Nat.le_self_pow ne mhtNbranches
    have := needs.2
    omega
  simp

/-- A flush empties the queues, and then builds the tree. -/
theorem LogInv.flush_enter (inv : LogInv env hist old queued m) :
    ∃ more buf s, (Mht.flush env).run m = (doBuild env buf.entryQueue).run { m with
        dataBuf := { buf with entryQueue := [], startPos := buf.startPos + buf.entryQueue.length }
        storage := s } ∧
      LogInv env (hist ++ more) old (queued ++ m.dataBuf.nodeQueue)
        { m with dataBuf := buf, storage := s } ∧
      buf.nodeQueue = [] ∧ buf.entryQueueCap = m.dataBuf.entryQueueCap := by
  obtain ⟨more, buf, s, ok, inv1, empty, cap, -⟩ := inv.flushNodeQueue
  refine ⟨more, buf, s, ?_, inv1, empty, cap⟩
  have flushed : (m.dataBuf.flush env).run m.storage = .ok (buf.entryQueue,
      { buf with entryQueue := [], startPos := buf.startPos + buf.entryQueue.length }) s := by
    rw [AppendDataBuf.flush, run_bind ok]
    rfl
  rw [Mht.flush, run_get_bind, run_bind (onStorage_run flushed), run_modify_bind]

/-- All that is queued goes to the tree. -/
theorem LogInv.flush (inv : LogInv env hist old queued m) (nonempty : 0 < m.totalDataNodes)
    (rebuildable : 0 < m.dataBuf.numAppend → Rebuildable (built m)) :
    ∃ more m', LogInv env (hist ++ more) (old ++ (queued ++ m.dataBuf.nodeQueue)) [] m' ∧
      Returns env m .flush m' ∧
      ((Mht.flush env).run m = .ok ⟨⟩ m' ↔ ¬ NothingToBuild old (queued ++ m.dataBuf.nodeQueue)) ∧
      m'.dataBuf.nodeQueue = [] ∧ m'.dataBuf.entryQueue = [] ∧
      m'.dataBuf.entryQueueCap = m.dataBuf.entryQueueCap ∧ m'.rootKey = m.rootKey := by
  rw [inv.total_eq, append_assoc] at nonempty
  rw [inv.built_eq] at rebuildable
  have pending := inv.numAppend_eq
  obtain ⟨more, buf, s, enter, inv1, empty, cap⟩ := inv.flush_enter
  have count := inv1.length_queued
  have small := inv1.small
  have start := inv1.start
  simp only [empty, length_nil] at count small start
  generalize queued ++ m.dataBuf.nodeQueue = new at *
  let buf' : AppendDataBuf Key Mac :=
    { buf with entryQueue := [], startPos := buf.startPos + buf.entryQueue.length }
  change _ = (doBuild env buf.entryQueue).run { m with dataBuf := buf', storage := s } at enter
  have start' : buf'.startPos = (old ++ new).length := by
    rw [length_append, ← start, ← count]
  have small' : (old ++ new).length < 2 ^ 32 := by rwa [length_append]
  by_cases nothing : NothingToBuild old new
  · obtain rfl : new = [] := nothing.1
    rw [length_eq_zero_iff.mp count] at enter
    rw [append_nil] at small' start' ⊢
    obtain ⟨s', fails, stored'⟩ := doBuild_nothing (m := { m with dataBuf := buf', storage := s })
      inv1.stored inv1.tree small' nothing
    refine ⟨more, { m with dataBuf := buf', storage := s' },
      ⟨stored', inv1.tree, inv1.named, .nil _ _, start', by simpa [buf', empty] using small'⟩,
      .inr ⟨_, _, enter.trans fails⟩, ?_, empty, rfl, cap, rfl⟩
    rw [enter.trans fails]
    exact ⟨nofun, fun something => absurd nothing something⟩
  · have extends_ : Rebuildable old.length := by
      cases new with
      | nil => exact rebuildable_of_something nothing
      | cons block new => exact rebuildable (by rw [pending]; exact Nat.succ_pos _)
    obtain ⟨more', info, root, s', built_, stored', tree', named⟩ :=
      doBuild_run (m := { m with dataBuf := buf', storage := s }) inv1.stored inv1.tree inv1.entries
        nonempty small' extends_ nothing
    have done := enter.trans built_
    refine ⟨more ++ more', { m with root := some (info, root), dataBuf := buf', storage := s' },
      ⟨?_, ?_, ?_, .nil _ _, start', by simpa [buf', empty] using small'⟩, .inl done,
      ⟨fun _ => nothing, fun _ => done⟩, empty, rfl, cap, rfl⟩
    · rwa [← append_assoc]
    · rw [← append_assoc]
      exact tree'
    · rintro _ _ ⟨⟩
      rw [← append_assoc]
      exact named

/-! ## Calls -/

variable (env) in
/-- The blocks of the log, in the order of their positions. -/
structure Contains (hist : History Key Iv Mac) (content : List Bytes) (m : Mht κ Key Iv Mac) :
    Prop where
  inv : ∃ old queued, LogInv env hist old queued m ∧ old ++ (queued ++ m.dataBuf.nodeQueue) = content
  room : m.dataBuf.entryQueue.length < m.dataBuf.entryQueueCap

/-- The first half of an append: the blocks are queued. -/
theorem LogInv.queue (inv : LogInv env hist old queued m)
    (room : m.dataBuf.entryQueue.length < m.dataBuf.entryQueueCap) {blocks : List Bytes}
    (small : m.totalDataNodes + blocks.length < 2 ^ 32) :
    ∃ more queued' buf s, (exec env (.append blocks)).run m =
        (if buf.isFull then Mht.flush env else pure ⟨⟩ : Mht.M κ Key Iv Mac Unit).run
          { m with dataBuf := buf, storage := s } ∧
      LogInv env (hist ++ more) old queued' { m with dataBuf := buf, storage := s } ∧
      queued' ++ buf.nodeQueue = queued ++ m.dataBuf.nodeQueue ++ blocks ∧
      buf.entryQueueCap = m.dataBuf.entryQueueCap ∧ (buf.isFull = true → Fills m blocks) := by
  rw [inv.total_eq] at small
  simp only [length_append] at small
  have queue : LogInv env hist old queued
      { m with dataBuf := { m.dataBuf with nodeQueue := m.dataBuf.nodeQueue ++ blocks } } :=
    ⟨inv.stored, inv.tree, inv.named, inv.entries, inv.start, by
      simp only [length_append]; omega⟩
  have open_ : m.dataBuf.isFull = false := by simp [isFull, room]
  have enter : ∀ {buf s}, (m.dataBuf.appendDataNodes env blocks).run m.storage = .ok buf s →
      (exec env (.append blocks)).run m =
        (if buf.isFull then Mht.flush env else pure ⟨⟩ : Mht.M κ Key Iv Mac Unit).run
          { m with dataBuf := buf, storage := s } := by
    intro buf s ok
    rw [exec, Mht.appendDataNodes, run_get_bind, run_bind (onStorage_run ok), run_modify_bind]
  simp only [AppendDataBuf.appendDataNodes, open_, Bool.false_eq_true, if_false, length_append] at enter
  split at enter
  next full =>
    obtain ⟨more, buf, s, ok, inv', empty, cap, -⟩ := queue.flushNodeQueue
    refine ⟨more, _, buf, s, enter ok, inv', by simp [empty], cap, fun filled => ?_⟩
    have count := inv'.length_queued
    simp only [isFull, cap, count] at filled
    simpa [Fills, full, inv.length_queued] using filled
  next =>
    refine ⟨[], queued, _, m.storage, enter rfl, by rwa [append_nil], by simp, rfl, fun filled => ?_⟩
    simp only [isFull, decide_eq_true_eq] at filled
    omega

/-- A safe call returns and appends its blocks. -/
theorem Contains.call {content : List Bytes} (contains : Contains env hist content m) {op : Op} (safe : SafeCall m op) :
    ∃ more m', Returns env m op m' ∧ Contains env (hist ++ more) (content ++ op.blocks) m' ∧
      m'.rootKey = m.rootKey ∧
      (0 < m.dataBuf.numAppend → op = .flush → (Mht.flush env).run m = .ok ⟨⟩ m') := by
  obtain ⟨⟨old, queued, inv, rfl⟩, room⟩ := contains
  cases op with
  | flush =>
    obtain ⟨more, m', inv', returns, done, nodes, entries, cap, key⟩ := inv.flush safe.1 safe.2
    refine ⟨more, m', returns, ⟨⟨_, [], inv', ?_⟩, ?_⟩, key,
      fun pending _ => done.mpr (inv.something pending)⟩
    · simp [nodes, Op.blocks]
    · rw [entries, cap]
      exact lt_of_le_of_lt (Nat.zero_le _) room
  | append blocks =>
    obtain ⟨small, rebuildable⟩ := safe
    obtain ⟨more, queued', buf, s, enter, inv1, split, cap, fills⟩ := inv.queue room small
    by_cases full : buf.isFull
    · rw [if_pos full] at enter
      have some : 0 < buf.numAppend := by
        simp only [isFull, decide_eq_true_eq] at full
        rw [numAppend]
        omega
      obtain ⟨more', m', inv', -, done, nodes, entries, cap', key⟩ :=
        inv1.flush (lt_of_lt_of_le some (Nat.le_add_right _ _)) (fun _ => rebuildable (fills full))
      rw [append_assoc hist] at inv'
      refine ⟨more ++ more', m', .inl (enter.trans (done.mpr (inv1.something some))),
        ⟨⟨_, [], inv', ?_⟩, ?_⟩, key,
        fun _ flush => by cases flush⟩
      · simp [nodes, split, Op.blocks]
      · rw [entries, cap', cap]
        exact lt_of_le_of_lt (Nat.zero_le _) room
    · rw [if_neg full] at enter
      refine ⟨more, _, .inl enter, ⟨⟨old, queued', inv1, ?_⟩, ?_⟩, rfl, fun _ flush => by cases flush⟩
      · simp [split, Op.blocks]
      · simpa [isFull] using full

theorem Returns.unique {op : Op} {m1 m2 : Mht κ Key Iv Mac} (h1 : Returns env m op m1)
    (h2 : Returns env m op m2) : m1 = m2 := by
  rcases h1 with h1 | ⟨_, _, h1⟩ <;> rcases h2 with h2 | ⟨_, _, h2⟩ <;> rw [h1] at h2 <;> cases h2 <;> rfl

/-- A run of safe calls appends the blocks of its calls. -/
theorem Contains.run {content : List Bytes} {ops : List Op}
    (run : Labelled.Run (SafeStep env) m ops m') (contains : Contains env hist content m) :
    ∃ more, Contains env (hist ++ more) (content ++ appended ops) m' ∧ m'.rootKey = m.rootKey := by
  induction run generalizing hist content with
  | nil => exact ⟨[], by simpa [appended] using contains, rfl⟩
  | cons first _ ih =>
    obtain ⟨more, m1, returns, contains1, key1, -⟩ := contains.call first.2
    obtain rfl := first.1.unique returns
    obtain ⟨more', contains2, key2⟩ := ih contains1
    refine ⟨more ++ more', ?_, key2.trans key1⟩
    simpa [appended, append_assoc] using contains2

theorem Contains.new {storage : MhtStorage κ} {rootKey : Key}
    (fresh : ∀ p v, ¬ env.cache.holds storage.nodeCache p v)
    (ok : new storage rootKey = .ok m) :
    Contains env (storage.blockLog.map .raw) [] m ∧ m.rootKey = rootKey := by
  obtain ⟨buf, ok', ok⟩ := bind_ok.mp ok
  obtain ⟨⟨nodeCap, entryCap⟩, caps, ok'⟩ := bind_ok.mp ok'
  obtain ⟨max, sub, caps⟩ := bind_ok.mp caps
  cases ok'
  cases ok
  obtain ⟨-, rfl⟩ := checkedSub_ok.mp sub
  obtain ⟨-, rfl⟩ := caps
  refine ⟨⟨⟨[], [], ⟨⟨?_, ?_⟩, rfl, ?_, .nil _ _, rfl, by simp⟩, rfl⟩, ?_⟩, rfl⟩
  · simp [Function.comp_def, Cell.cipher]
  · exact fun p v held => absurd held (fresh p v)
  · rintro _ _ ⟨⟩
  · simp only [length_nil]
    decide +kernel

/-! ## Reopening -/

/-- A range that the buffer does not have is searched in the tree. -/
theorem search_tree {ctx : SearchCtx} (rooted : m.rootNode = some root)
    (inside : ctx.pos + ctx.num ≤ m.totalDataNodes)
    (before : ctx.pos + ctx.num ≤ m.dataBuf.startPos) (open_ : ctx.isCompleted = false) : (search env ctx).run m =
      (onStorage (searchHierarchy env root.height [root] ctx)).run m := by
  have skipped : (m.dataBuf.searchDataNodes env ctx).run m.storage = .ok ctx m.storage := by
    rw [searchDataNodes, if_pos before]
    rfl
  rw [search, run_get_bind, rooted]
  simp only [not_lt.mpr inside, if_false]
  rw [run_bind (onStorage_run skipped), open_]
  rfl

/-- Reopening a log gives its root and an empty buffer. -/
theorem openWith_run {info : RootMhtMeta Iv Mac} {key : Key} (stored : StoredHistory env hist s)
    (at_p : hist[info.pos]? = some (.node root key info.iv)) (mac : info.mac = (sealNode env root key info.iv).2)
    (few : root.numDataNodes ≤ maxEntryQueueCap) :
    ∃ buf s', (openWith env key info).run s = .ok ⟨some (info, root), key, buf, s'⟩ s' ∧
      StoredHistory env hist s' ∧ buf.startPos = root.numDataNodes ∧
      (mk (some (info, root)) key buf s').totalDataNodes = root.numDataNodes := by
  obtain ⟨s', loaded, stored'⟩ := stored.readMhtNode at_p
  obtain ⟨buf, fresh, start, empty⟩ :
      ∃ buf : AppendDataBuf Key Mac, new appendBufCapacity root.numDataNodes = .ok buf ∧
      buf.startPos = root.numDataNodes ∧ buf.numAppend = 0 := by
    simp only [AppendDataBuf.new, calcQueueCap, checkedSub_of_le few]
    exact ⟨_, rfl, rfl, rfl⟩
  refine ⟨buf, s', ?_, stored', start, by simp [totalDataNodes, empty, rootNode]⟩
  rw [openWith, rootMhtNode, mac, run_bind loaded, fresh, run_liftRes_bind]
  rfl

/-- With nothing queued, the blocks of the tree are read. -/
theorem read_tree {ds : List Bytes} (stored : StoredHistory env hist m.storage)
    (rooted : m.rootNode = some root) (tree : Tree env hist (some root) ds)
    (start : m.dataBuf.startPos = ds.length) (total : m.totalDataNodes = ds.length) {pos : Nat}
    {buf : List Bytes} (inside : pos + buf.length ≤ ds.length) :
    ∃ m', (read env pos buf).run m = .ok ((ds.drop pos).take buf.length) m' := by
  obtain ⟨h, needs, covers⟩ := tree
  have root_covers : Covers (NodeCovers env (EntryCovers env hist h) h) (mhtNbranches ^ (h + 1)) [root] ds := by
    refine covers_singleton covers ?_ covers.length_le
    obtain ⟨_, -, -, -, some⟩ := covers
    exact some
  obtain ⟨ctx, s2, found, -, filled⟩ := stored.search root_covers (.new pos buf) inside rfl le_rfl
  rw [← covers.height_eq] at found
  refine ⟨{ m with storage := s2 }, ?_⟩
  have searched : (search env (.new pos buf)).run m = .ok ctx { m with storage := s2 } := by
    rw [search_tree rooted (by rw [total]; exact inside) (by rw [start]; exact inside) rfl, onStorage_run found]
  have whole : ctx.dataBuf = (ds.drop pos).take buf.length := by
    simpa [SearchCtx.new] using filled
  rw [read, run_bind searched, whole]
  rfl

/-- The metadata of a root gives back its blocks. -/
theorem reopen_reads {info : RootMhtMeta Iv Mac} {key : Key} {ds : List Bytes} (stored : StoredHistory env hist s)
    (tree : Tree env hist (some root) ds) (at_p : hist[info.pos]? = some (.node root key info.iv))
    (mac : info.mac = (sealNode env root key info.iv).2) (few : ds.length ≤ maxEntryQueueCap) :
    ∃ m s', (openWith env key info).run s = .ok m s' ∧
      ∀ pos buf, pos + buf.length ≤ ds.length → ∃ m', (read env pos buf).run m =
        .ok ((ds.drop pos).take buf.length) m' := by
  have small : maxEntryQueueCap < 2 ^ 32 := by decide +kernel
  have count : root.numDataNodes = ds.length := tree.count (lt_of_le_of_lt few small)
  obtain ⟨buf, s1, opened, stored1, start, total⟩ := openWith_run stored at_p mac (count ▸ few)
  rw [count] at start total
  exact ⟨_, s1, opened, fun pos data inside => read_tree stored1 rfl tree start total inside⟩

/-- Every safe call returns, and a flush of queued blocks succeeds. The root metadata of a flush
gives back exactly the blocks appended before it, whatever safe calls came after. The log may be
reopened with any cache that knows no more than the one in use. -/
theorem read_after_reopen {storage : MhtStorage κ} {rootKey : Key} {m0 : Mht κ Key Iv Mac}
    {before : List Op} (fresh : ∀ p v, ¬ env.cache.holds storage.nodeCache p v)
    (created : Mht.new storage rootKey = .ok m0)
    (run : Labelled.Run (SafeStep env) m0 before m) :
    (∀ op, SafeCall m op → ∃ m', Returns env m op m') ∧
    (SafeCall m .flush → 0 < m.dataBuf.numAppend → ∃ m', (Mht.flush env).run m = .ok ⟨⟩ m') ∧
    ∀ m1 after m2 cache, SafeCall m .flush → (Mht.flush env).run m = .ok ⟨⟩ m1 →
      Labelled.Run (SafeStep env) m1 after m2 →
      (∀ p v, env.cache.holds cache p v → env.cache.holds m2.storage.nodeCache p v) →
      (appended before).length ≤ AppendDataBuf.maxEntryQueueCap →
      ∃ info m' s', m1.rootMeta = some info ∧
        (Mht.openWith env rootKey info).run { m2.storage with nodeCache := cache } = .ok m' s' ∧
        ∀ pos buf, pos + buf.length ≤ (appended before).length →
          ∃ m'', (read env pos buf).run m' = .ok (((appended before).drop pos).take buf.length) m'' := by
  obtain ⟨contains0, key0⟩ := Contains.new fresh created
  obtain ⟨more, contains, key⟩ := contains0.run run
  rw [nil_append] at contains
  refine ⟨fun op safe => ?_, fun safe pending => ?_, ?_⟩
  · obtain ⟨-, m', returns, -⟩ := contains.call safe
    exact ⟨m', returns⟩
  · obtain ⟨-, m', -, -, -, done⟩ := contains.call safe
    exact ⟨m', done pending rfl⟩
  intro m1 after m2 cache safe flushed run2 known few
  obtain ⟨⟨old, queued, inv, content⟩, room⟩ := contains
  obtain ⟨more1, m', inv1, returns, -, nodes, entries, cap, key1⟩ := inv.flush safe.1 safe.2
  have returned : Returns env m .flush m1 := .inl flushed
  obtain rfl := returned.unique returns
  have some : 0 < (appended before).length := by
    rw [← content, ← append_assoc, ← inv.total_eq]
    exact safe.1
  rw [content] at inv1
  obtain ⟨info, root, rooted⟩ := inv1.rooted some
  obtain ⟨at_p, mac⟩ := inv1.named info root rooted
  have contains1 : Contains env _ (appended before) m1 :=
    ⟨⟨_, [], inv1, by simp [nodes]⟩, by rw [entries, cap]; exact lt_of_le_of_lt (Nat.zero_le _) room⟩
  obtain ⟨more2, ⟨⟨_, _, inv2, -⟩, -⟩, -⟩ := contains1.run run2
  have stored : StoredHistory env _ { m2.storage with nodeCache := cache } :=
    ⟨inv2.stored.log, fun p v held => inv2.stored.cached p v (known p v held)⟩
  have tree := inv1.tree.append more2
  rw [rootNode, rooted] at tree
  have key_eq : m1.rootKey = rootKey := key1.trans (key.trans key0)
  rw [key_eq] at at_p mac
  obtain ⟨m', s', opened, reads⟩ := reopen_reads stored tree
    (by rw [getElem?_append_left (List.getElem?_eq_some_iff.mp at_p).1, at_p]) mac few
  exact ⟨info, m', s', by rw [rootMeta, rooted]; rfl, opened, reads⟩

/-! ## A log over the symbolic cipher -/

/-- A number that stands for a node. -/
def nodeCode (node : MhtNode UInt8 Bytes) : Nat :=
  Encodable.encode (node.height, node.numDataNodes, node.numValidEntries,
    node.entries.map fun e => (e.pos, e.key.toNat, e.mac.map UInt8.toNat))

def noEntry : MhtNodeEntry UInt8 Bytes := ⟨0, 0, []⟩

def nodeOfCode (code : Nat) : MhtNode UInt8 Bytes :=
  match (Encodable.decode code : Option (Nat × Nat × Nat × List (Nat × Nat × List Nat))) with
  | none => ⟨0, 0, 0, List.replicate mhtNbranches noEntry, List.length_replicate⟩
  | some (height, numDataNodes, numValidEntries, codes) =>
    let entries := codes.map fun (pos, key, mac) => ⟨pos, UInt8.ofNat key, mac.map UInt8.ofNat⟩
    if size : entries.length = mhtNbranches then
      ⟨height, numDataNodes, numValidEntries, entries, size⟩
    else ⟨0, 0, 0, List.replicate mhtNbranches noEntry, List.length_replicate⟩

theorem nodeOfCode_nodeCode (node : MhtNode UInt8 Bytes) : nodeOfCode (nodeCode node) = node := by
  obtain ⟨height, numDataNodes, numValidEntries, es, size⟩ := node
  have entries : (es.map fun e => (e.pos, e.key.toNat, e.mac.map UInt8.toNat)).map
      (fun (pos, key, mac) => (⟨pos, UInt8.ofNat key, mac.map UInt8.ofNat⟩ : MhtNodeEntry UInt8 Bytes)) =
      es := by
    simp [Function.comp_def]
  unfold nodeOfCode nodeCode
  rw [Encodable.encodek]
  simp only [entries, size, dif_pos]

/-- The symbolic cipher, and no cache. -/
def symbolicEnv : MhtEnv Unit UInt8 Nat Bytes where
  crypto := Symbolic.cipher
  decrypt_encrypt := Symbolic.cipher_ideal.decrypt_encrypt
  randomKey n := UInt8.ofNat n
  asBytes node := List.replicate (nodeCode node) 0
  fromBytes bytes := nodeOfCode bytes.length
  fromBytes_asBytes node := by rw [List.length_replicate, nodeOfCode_nodeCode]
  uninit := noEntry
  cache :=
    { get := fun _ _ => (none, ())
      put := fun _ _ _ => ()
      holds := fun _ _ _ => False
      get_some := fun h => by cases h
      get_holds := fun h => h
      put_holds := fun h => h.elim }

theorem no_cache (p : Nat) (v : MhtNode UInt8 Bytes) : ¬ symbolicEnv.cache.holds () p v := id

theorem LogInv.read (inv : LogInv env hist old queued m) (idle : m.dataBuf.numAppend = 0)
    {pos : Nat} {buf : List Bytes} (some : 0 < old.length) (inside : pos + buf.length ≤ old.length) :
    ∃ m', (read env pos buf).run m = .ok ((old.drop pos).take buf.length) m' := by
  obtain ⟨info, root, rooted⟩ := inv.rooted some
  have node : m.rootNode = .some root := by rw [rootNode, rooted]; rfl
  have total := inv.built_eq
  rw [← add_zero (built m), ← idle, add_comm] at total
  exact read_tree inv.stored node (node ▸ inv.tree) inv.start total inside

/-- Over an empty log there is no tree to build. -/
theorem LogInv.flush_empty (inv : LogInv env hist [] [] m) (nodes : m.dataBuf.nodeQueue = []) :
    ∃ m', (Mht.flush env).run m = .error (.panic "argument of integer logarithm must be positive") m' := by
  obtain ⟨more, buf, s, enter, inv', -⟩ := inv.flush_enter
  have entries : buf.entryQueue.length = 0 := by rw [inv'.length_queued, nodes]; rfl
  have unrooted : m.rootNode = none := by
    have tree := inv.tree
    cases root : m.rootNode with
    | none => rfl
    | some root =>
      rw [root] at tree
      obtain ⟨_, -, _, -, -, -, some⟩ := tree
      exact absurd some (lt_irrefl 0)
  rw [enter, length_eq_zero_iff.mp entries, doBuild, run_get_bind]
  change m.root.map Prod.snd = none at unrooted
  simp only [rootNode, unrooted]
  exact ⟨_, rfl⟩

/-- A flush succeeds exactly when the log has a block and the tree has a node on its lowest level to
build; with nothing queued, it leaves every block to be read as it was. -/
theorem flush_succeeds_iff {storage : MhtStorage κ} {rootKey : Key} {m0 : Mht κ Key Iv Mac}
    {ops : List Op} (fresh : ∀ p v, ¬ env.cache.holds storage.nodeCache p v)
    (created : Mht.new storage rootKey = .ok m0) (run : Labelled.Run (SafeStep env) m0 ops m)
    (rebuildable : 0 < m.dataBuf.numAppend → Rebuildable (built m)) :
    ((∃ m', (Mht.flush env).run m = .ok ⟨⟩ m') ↔ 0 < m.totalDataNodes ∧
      ¬ (m.dataBuf.numAppend = 0 ∧ mhtNbranches ∣ built m ∧ mhtNbranches < built m)) ∧
    (0 < m.totalDataNodes → m.dataBuf.numAppend = 0 → ∃ m', Returns env m .flush m' ∧
      ∀ pos buf, pos + buf.length ≤ (appended ops).length → ∃ m1 m2,
        (read env pos buf).run m = .ok (((appended ops).drop pos).take buf.length) m1 ∧
        (read env pos buf).run m' = .ok (((appended ops).drop pos).take buf.length) m2) := by
  obtain ⟨more, ⟨⟨old, queued, inv, content⟩, -⟩, -⟩ := (Contains.new fresh created).1.run run
  have total := inv.total_eq
  rw [append_assoc, content] at total
  rw [← inv.nothing_iff]
  refine ⟨⟨fun ⟨m', done⟩ => ?_, fun ⟨pos, something⟩ => ?_⟩, fun some idle => ?_⟩
  · rcases Nat.eq_zero_or_pos m.totalDataNodes with empty | some
    · rw [total, ← content, length_eq_zero_iff] at empty
      simp only [append_eq_nil_iff] at empty
      obtain ⟨rfl, rfl, nodes⟩ := empty
      obtain ⟨_, fails⟩ := inv.flush_empty nodes
      cases done.symm.trans fails
    · obtain ⟨_, m'', -, returns, succeeds, -⟩ := inv.flush some rebuildable
      have returned : Returns env m .flush m' := .inl done
      obtain rfl := returned.unique returns
      exact ⟨some, succeeds.mp done⟩
  · obtain ⟨_, m', -, -, succeeds, -⟩ := inv.flush pos rebuildable
    exact ⟨m', succeeds.mpr something⟩
  · obtain ⟨_, m', inv', returns, -, nodes, entries, -⟩ := inv.flush some rebuildable
    rw [content] at inv'
    have none := inv.numAppend_eq
    rw [idle, eq_comm, length_eq_zero_iff] at none
    rw [none, append_nil] at content
    subst content
    rw [total] at some
    refine ⟨m', returns, fun pos buf inside => ?_⟩
    obtain ⟨m1, before⟩ := inv.read idle some inside
    obtain ⟨m2, after⟩ := inv'.read (by rw [numAppend, nodes, entries]; rfl) some inside
    exact ⟨m1, m2, before, after⟩

/-- An append and a flush of a log that is flushed, when the blocks fit the entry queue. -/
theorem LogInv.append_flush {m0 : Mht κ Key Iv Mac} (inv : LogInv env hist old [] m0)
    (nodes : m0.dataBuf.nodeQueue = [])
    {blocks : List Bytes} (some : 0 < blocks.length) (few : blocks.length < m0.dataBuf.entryQueueCap)
    (small : old.length + blocks.length < 2 ^ 32) (rebuildable : Rebuildable old.length) :
    ∃ hist' m m1, (exec env (.append blocks)).run m0 = .ok ⟨⟩ m ∧ SafeCall m0 (.append blocks) ∧
      (Mht.flush env).run m = .ok ⟨⟩ m1 ∧ SafeCall m .flush ∧ LogInv env hist' (old ++ blocks) [] m1 ∧
      m1.dataBuf.nodeQueue = [] ∧ m1.dataBuf.entryQueue = [] ∧
      m1.dataBuf.entryQueueCap = m0.dataBuf.entryQueueCap ∧ m1.rootKey = m0.rootKey := by
  have entries : m0.dataBuf.entryQueue.length = 0 := inv.length_queued
  have total : m0.totalDataNodes = old.length := by rw [inv.total_eq, nodes, append_nil, append_nil]
  have quiet : ¬ Fills m0 blocks := by
    simp only [Fills, nodes, length_nil]
    split <;> omega
  obtain ⟨more, queued', buf, s, enter, inv', split, cap, fills⟩ :=
    inv.queue (by omega) (show m0.totalDataNodes + blocks.length < 2 ^ 32 by omega)
  rw [if_neg (fun full => quiet (fills full))] at enter
  simp only [nodes, nil_append] at split
  have total' : ({ m0 with dataBuf := buf, storage := s }).totalDataNodes = old.length + blocks.length := by
    rw [inv'.total_eq, append_assoc, split, length_append]
  have built' := inv'.built_eq
  have pending : 0 < buf.numAppend := by
    simp only [totalDataNodes] at total'
    simp only [built] at built'
    simp only [built'] at total'
    omega
  have safe : SafeCall { m0 with dataBuf := buf, storage := s } .flush :=
    ⟨by omega, fun _ => built' ▸ rebuildable⟩
  obtain ⟨more', m1, inv1, -, done, nodes1, entries1, cap1, key1⟩ := inv'.flush safe.1 safe.2
  simp only [split] at inv1
  exact ⟨_, _, m1, enter, ⟨by omega, fun full => absurd full quiet⟩,
    done.mpr (inv'.something pending), safe, inv1, nodes1, entries1, cap1.trans cap, key1⟩

theorem rebuildable_zero : Rebuildable 0 := fun _ _ _ => dvd_zero _

/-- The first append and flush of a new log. -/
theorem first_flush {storage : MhtStorage κ} {rootKey : Key} {m0 : Mht κ Key Iv Mac}
    (fresh : ∀ p v, ¬ env.cache.holds storage.nodeCache p v)
    (created : Mht.new storage rootKey = .ok m0) {blocks : List Bytes} (some : 0 < blocks.length)
    (few : blocks.length < m0.dataBuf.entryQueueCap) (small : blocks.length < 2 ^ 32) :
    ∃ hist m m1, (exec env (.append blocks)).run m0 = .ok ⟨⟩ m ∧ SafeCall m0 (.append blocks) ∧
      (Mht.flush env).run m = .ok ⟨⟩ m1 ∧ SafeCall m .flush ∧ LogInv env hist blocks [] m1 ∧
      m1.dataBuf.nodeQueue = [] ∧ m1.dataBuf.entryQueue = [] ∧
      m1.dataBuf.entryQueueCap = m0.dataBuf.entryQueueCap ∧ m1.rootKey = rootKey := by
  obtain ⟨⟨⟨old, queued, inv, empty⟩, -⟩, rfl⟩ := Contains.new fresh created
  simp only [append_eq_nil_iff] at empty
  obtain ⟨rfl, rfl, nodes⟩ := empty
  exact inv.append_flush nodes some few (by simpa using small) rebuildable_zero

/-- A new log in an empty block log. -/
def emptyLog : Mht Unit UInt8 Nat Bytes := ⟨none, 9, ⟨[], 1024, [], 104857, 0⟩, ⟨[], (), 0⟩⟩

theorem new_emptyLog : new ⟨[], (), 0⟩ 9 = .ok emptyLog := by with_unfolding_all rfl

def block (b : UInt8) : Bytes := List.replicate blockSize b

/-- A second flush. -/
theorem flush_succeeds_iff_again : ∃ m1 m2,
    Labelled.Run (SafeStep symbolicEnv) emptyLog [.append [block 1, block 2], .flush] m1 ∧
      m1.dataBuf.numAppend = 0 ∧ (Mht.flush symbolicEnv).run m1 = .ok ⟨⟩ m2 := by
  obtain ⟨hist, m, m1, appends, safe, flushed, safe', inv, nodes, entries, -⟩ :=
    first_flush no_cache new_emptyLog (show 0 < [block 1, block 2].length by decide) (by decide) (by decide)
  have run : Labelled.Run (SafeStep symbolicEnv) emptyLog [.append [block 1, block 2], .flush] m1 :=
    .cons ⟨.inl appends, safe⟩ (.single ⟨.inl flushed, safe'⟩)
  have idle : m1.dataBuf.numAppend = 0 := by rw [numAppend, nodes, entries]; rfl
  have two : built m1 = 2 := inv.built_eq
  have total : m1.totalDataNodes = 2 := by rw [inv.total_eq, nodes]; rfl
  obtain ⟨m2, done⟩ := (flush_succeeds_iff no_cache new_emptyLog run (by omega)).1.mpr
    ⟨by omega, by rw [mhtNbranches_eq]; omega⟩
  exact ⟨m1, m2, run, idle, done⟩

theorem flush_of_empty_panics : ∃ m, (Mht.flush symbolicEnv).run emptyLog =
    .error (.panic "argument of integer logarithm must be positive") m :=
  ⟨_, by with_unfolding_all rfl⟩

/-- Two blocks are flushed, and a third one extends the tree. -/
theorem read_after_reopen_twoFlushes :
    ∃ m m1 info m' s', Labelled.Run (SafeStep symbolicEnv) emptyLog
        [.append [block 1, block 2], .flush, .append [block 3]] m ∧
      (Mht.flush symbolicEnv).run m = .ok ⟨⟩ m1 ∧ m1.rootMeta = some info ∧
      (Mht.openWith symbolicEnv 9 info).run m1.storage = .ok m' s' ∧
      ∃ m'', (read symbolicEnv 1 [block 0, block 0]).run m' = .ok [block 2, block 3] m'' := by
  obtain ⟨hist, m1, m2, appends, safe1, flushed, safe2, inv, nodes, -, cap, -⟩ :=
    first_flush no_cache new_emptyLog (show 0 < [block 1, block 2].length by decide) (by decide) (by decide)
  have rebuildable : Rebuildable 2 := fun _ _ dvd => absurd dvd (by rw [mhtNbranches_eq]; decide)
  obtain ⟨-, m3, m4, appends3, safe3, flushed4, safe4, -⟩ := inv.append_flush nodes
    (show 0 < [block 3].length by decide) (by rw [cap]; decide) (by decide) rebuildable
  have run : Labelled.Run (SafeStep symbolicEnv) emptyLog [.append [block 1, block 2], .flush, .append [block 3]] m3 :=
    .cons ⟨.inl appends, safe1⟩ (.cons ⟨.inl flushed, safe2⟩ (.single ⟨.inl appends3, safe3⟩))
  obtain ⟨info, m', s', rooted, opened, reads⟩ :=
    (read_after_reopen no_cache new_emptyLog run).2.2 m4 [] m4 () safe4 flushed4 (.nil m4)
      (fun _ _ held => held) (by decide +kernel)
  exact ⟨m3, m4, info, m', s', run, flushed4, rooted, opened, reads 1 [block 0, block 0] (by decide)⟩

/-- An entry that was never set leads nowhere. -/
theorem readMhtNodes_noEntry {hist : History UInt8 Nat Bytes} {s : MhtStorage Unit}
    (stored : StoredHistory symbolicEnv hist s) (some : 0 < hist.length) :
    (readMhtNodes symbolicEnv [symbolicEnv.uninit]).run s =
      .error (.error .decryptFailed "aes-128-gcm decryption failed") s := by
  have wrong : ∀ c, symbolicEnv.crypto.decrypt c noEntry.key (zeroIv symbolicEnv) none noEntry.mac = none := by
    intro c
    exact if_neg (Symbolic.tag_ne_nil _ _ _ _).symm
  have read := stored.readBlock (getElem?_eq_getElem some)
  have fails : (decryptBlock symbolicEnv noEntry.pos noEntry.key noEntry.mac (zeroIv symbolicEnv)).run s =
      .error (.error .decryptFailed "aes-128-gcm decryption failed") s := by
    rw [decryptBlock, show noEntry.pos = 0 from rfl, run_bind read, wrong]
    rfl
  have node : (readMhtNode symbolicEnv noEntry.pos noEntry.key noEntry.mac (zeroIv symbolicEnv)).run s =
      .error (.error .decryptFailed "aes-128-gcm decryption failed") s := by
    rw [readMhtNode, run_get_bind, run_set_bind]
    exact run_bind_error fails
  exact run_bind_error node

theorem doBuild_stale (stored : StoredHistory env hist m.storage) (rooted : m.rootNode = some root)
    (covers : NodeCovers env (EntryCovers env hist 2) 2 root old) (count : old.length = mhtNbranches ^ 2 + mhtNbranches)
    (e : MhtNodeEntry Key Mac) : ∃ more info e' s', (doBuild env [e]).run m = .ok ⟨⟩ { m with
        root := some (info, staleRoot env old root e')
        storage := s' } ∧
      StoredHistory env (hist ++ more) s' ∧
      (hist ++ more)[info.pos]? = some (.node (staleRoot env old root e') m.rootKey info.iv) ∧
      info.mac = (sealNode env (staleRoot env old root e') m.rootKey info.iv).2 := by
  obtain ⟨more, previous, e', s1, s2, resumed, builds, stored2⟩ := stored.build_stale covers count e
  generalize stale : staleRoot env old root e' = node at builds
  obtain ⟨info, s3, written, stored3, pos, mac⟩ := stored2.appendRootMhtNode m.rootKey node
  refine ⟨more ++ [.node node m.rootKey info.iv], info, e', s3, ?_, ?_, ?_, stale ▸ mac⟩
  · rw [doBuild, run_get_bind, rooted, run_bind (onStorage_run resumed),
      run_bind (onStorage_run builds), run_bind (onStorage_run written), stale]
    rfl
  · rwa [← append_assoc]
  · rw [pos, stale]
    simp

/-- After such a build, the new block cannot be read. -/
theorem stale_unreadable {hist : History UInt8 Nat Bytes} {s : MhtStorage Unit}
    {root : MhtNode UInt8 Bytes} {info : RootMhtMeta Nat Bytes} {e : MhtNodeEntry UInt8 Bytes}
    (stored : StoredHistory symbolicEnv hist s)
    (covers : NodeCovers symbolicEnv (EntryCovers symbolicEnv hist 2) 2 root old)
    (count : old.length = 10506)
    (at_p : hist[info.pos]? = some (.node (staleRoot symbolicEnv old root e) 9 info.iv))
    (mac : info.mac = (sealNode symbolicEnv (staleRoot symbolicEnv old root e) 9 info.iv).2) :
    ∃ m s', (openWith symbolicEnv 9 info).run s = .ok m s' ∧
      ∃ fault m', (read symbolicEnv 10506 [block 0]).run m = .error fault m' := by
  have size : old.length = mhtNbranches ^ 2 + mhtNbranches := by rw [count, mhtNbranches_eq]; rfl
  have blocks : (staleRoot symbolicEnv old root e).numDataNodes = 10507 := by rw [staleRoot, count]; rfl
  obtain ⟨buf, s1, opened, stored1, start, total⟩ := openWith_run stored at_p mac (by rw [blocks]; decide +kernel)
  obtain ⟨s2, ctx, stored2, search⟩ := stored1.search_stale covers size e (block 0)
  have some : 0 < hist.length := lt_of_le_of_lt (Nat.zero_le _) (List.getElem?_eq_some_iff.mp at_p).1
  have failed := search.trans (run_bind_error (readMhtNodes_noEntry stored2 some))
  rw [count] at failed
  refine ⟨_, s1, opened, ?_⟩
  rw [blocks] at start total
  have inside : (SearchCtx.new 10506 [block 0]).pos + (SearchCtx.new 10506 [block 0]).num = 10507 := rfl
  have searched := search_tree rfl (inside.trans total.symm).le (inside.trans start.symm).le rfl
    |>.trans (onStorage_run_error failed)
  exact ⟨_, _, run_bind_error searched⟩

/-- A tree of `102² + 102` blocks is extended by one block, which then cannot be read. -/
theorem lost_block :
    ∃ m1 m2 m3 m4 info m s, (exec symbolicEnv
      (.append (List.replicate 10506 (block 0)))).run emptyLog = .ok ⟨⟩ m1 ∧
      (exec symbolicEnv .flush).run m1 = .ok ⟨⟩ m2 ∧
      (exec symbolicEnv (.append [block 1])).run m2 = .ok ⟨⟩ m3 ∧
      (exec symbolicEnv .flush).run m3 = .ok ⟨⟩ m4 ∧ m4.rootMeta = some info ∧
      (Mht.openWith symbolicEnv 9 info).run m4.storage = .ok m s ∧
      ∃ fault m', (read symbolicEnv 10506 [block 0]).run m = .error fault m' := by
  have count : (replicate 10506 (block 0)).length = 10506 := length_replicate
  generalize replicate 10506 (block 0) = blocks at count ⊢
  have cap : emptyLog.dataBuf.entryQueueCap = 104857 := rfl
  obtain ⟨hist, m1, m2, appends, -, flushed, -, inv, nodes, entries, cap2, key⟩ :=
    first_flush no_cache new_emptyLog (show 0 < blocks.length by omega) (by rw [cap]; omega) (by omega)
  -- the tree has height three
  obtain ⟨info2, root, rooted⟩ := inv.rooted (by omega)
  have covers : NodeCovers symbolicEnv (EntryCovers symbolicEnv hist 2) 2 root blocks := by
    have tree := inv.tree
    rw [rootNode, rooted] at tree
    obtain ⟨h, needs, covers⟩ := tree
    have three : NeedsHeight blocks.length 2 := by
      rw [NeedsHeight, count, mhtNbranches_eq]; decide
    obtain rfl := le_antisymm (needs.mono three le_rfl) (three.mono needs le_rfl)
    exact covers
  -- one more block is queued
  have total : m2.totalDataNodes + [block 1].length < 2 ^ 32 := by
    rw [inv.total_eq, nodes, append_nil, append_nil, count]
    decide
  have quiet : ¬ Fills m2 [block 1] := by
    simp only [Fills, nodes, entries, cap2, length_nil, length_singleton]
    split <;> omega
  obtain ⟨more, queued, buf, s, enter, inv3, split, -, fills⟩ := inv.queue (by rw [entries, cap2]; decide) total
  rw [if_neg (fun full => quiet (fills full))] at enter
  -- and flushed
  obtain ⟨more', buf', s', enter', inv4, -⟩ := inv3.flush_enter
  simp only [nodes] at split
  simp only [split] at inv4
  obtain ⟨e, queue⟩ : ∃ e, buf'.entryQueue = [e] := length_eq_one_iff.mp inv4.length_queued
  rw [queue] at enter'
  have covers4 := (covers.mono fun _ _ inner => inner.append more).mono fun _ _ inner =>
    inner.append more'
  have size : blocks.length = mhtNbranches ^ 2 + mhtNbranches := by rw [count, mhtNbranches_eq]; rfl
  obtain ⟨more5, info, e', s5, built_, stored5, at_p, mac⟩ := doBuild_stale
    (m := ⟨m2.root, m2.rootKey, { buf' with entryQueue := [], startPos := buf'.startPos + [e].length }, s'⟩)
    inv4.stored (by rw [rooted]; rfl) covers4 size e
  rw [key] at at_p mac
  obtain ⟨m, s6, opened, lost⟩ := stale_unreadable stored5
    (covers4.mono fun _ _ inner => inner.append more5) count at_p mac
  exact ⟨m1, m2, _, _, info, m, s6, appends, flushed, enter, enter'.trans built_, rfl, opened, lost⟩

end CryptoLog

end OmegaOsx.MlsDisk
