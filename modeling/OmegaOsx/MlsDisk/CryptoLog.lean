import OmegaOsx.MlsDisk.Stateful
import OmegaOsx.Lib.Cache
import Mathlib.Data.Nat.Log

/-!
# `CryptoLog`: an append-only log under a Merkle hash tree

The blocks of the log are the leaves of a tree whose nodes have 102 branches. The tree is rebuilt by
every flush: only the nodes on the right spine that are not full are written again.

The block log is the list of its blocks, and its own I/O does not fail. The node cache is given by
the user of the log.
-/

namespace OmegaOsx.MlsDisk

@[irreducible] def mhtNbranches : Nat := 102

structure RootMhtMeta (Iv Mac : Type) where
  pos : Nat
  mac : Mac
  iv : Iv

structure MhtNodeEntry (Key Mac : Type) where
  pos : Nat
  key : Key
  mac : Mac

/-- The fields of the header stand beside the entries. -/
structure MhtNode (Key Mac : Type) where
  height : Nat
  numDataNodes : Nat
  numValidEntries : Nat
  entries : List (MhtNodeEntry Key Mac)
  size : entries.length = mhtNbranches

/-- The cache of nodes by position, given by the user of the log. -/
abbrev NodeCache (κ Key Mac : Type) := Cache κ Nat (MhtNode Key Mac)

/-- The cipher and the rest of the code around a `CryptoLog`: random keys, the bytes of a node, and
the node cache. `uninit` is what an entry that is never set holds. One value is enough for all of them:
the results hold for any, since none of these entries is used, and the block that is lost is looked up
in a single one. -/
structure MhtEnv (κ Key Iv Mac : Type) where
  crypto : Crypto Key Iv Mac
  decrypt_encrypt : ∀ p k iv aad,
    crypto.decrypt (crypto.encrypt p k iv aad).1 k iv aad (crypto.encrypt p k iv aad).2 = some p
  randomKey : Nat → Key
  asBytes : MhtNode Key Mac → Bytes
  fromBytes : Bytes → MhtNode Key Mac
  fromBytes_asBytes : ∀ node, fromBytes (asBytes node) = node
  uninit : MhtNodeEntry Key Mac
  cache : NodeCache κ Key Mac

structure MhtStorage (κ : Type) where
  blockLog : List Bytes
  nodeCache : κ
  /-- How often the random source was used. -/
  draws : Nat

abbrev StoreM (κ : Type) := EStateM Fault (MhtStorage κ)

variable {κ Key Iv Mac : Type} (env : MhtEnv κ Key Iv Mac)

/-! ## Nodes -/

namespace MhtNode

def isLowestLevel (height : Nat) : Bool := height == 1

def maxNumDataNodes (height : Nat) : Nat := mhtNbranches ^ height

def isIncomplete (node : MhtNode Key Mac) : Bool :=
  node.numDataNodes != maxNumDataNodes node.height

def numCompleteChildren (node : MhtNode Key Mac) : Res Nat :=
  if node.numDataNodes % mhtNbranches = 0 ∨ isLowestLevel node.height then .ok node.numValidEntries
  else checkedSub node.numValidEntries 1

/-- A node with the given entries, padded to the number of branches. The header fields are a `u32`
and a `u16`. -/
def ofEntries (height numDataNodes : Nat) (entries : List (MhtNodeEntry Key Mac)) :
    MhtNode Key Mac where
  height := height
  numDataNodes := numDataNodes % 2 ^ 32
  numValidEntries := entries.length % 2 ^ 16
  entries := (entries ++ List.replicate mhtNbranches env.uninit).take mhtNbranches
  size := by simp

end MhtNode

/-! ## The storage -/

namespace MhtStorage

/-- `Iv::new_zeroed()`. -/
def zeroIv : Iv := env.crypto.versionIv 0

/-- `Key::random()`. -/
def randomKey : StoreM κ Key := do
  let s ← get
  set { s with draws := s.draws + 1 }
  return env.randomKey s.draws

variable (pos : Nat)

/-- `block_log.read` of one block. -/
def readBlock : StoreM κ Bytes := do
  match (← get).blockLog[pos]? with
  | some cipher => return cipher
  | none => raise .invalidArgs "read range out of bound"

/-- `block_log.append`: the position of the first new block. -/
def appendBlocks (blocks : List Bytes) : StoreM κ Nat := do
  let s ← get
  set { s with blockLog := s.blockLog ++ blocks }
  return s.blockLog.length

def putNode (node : MhtNode Key Mac) : StoreM κ Unit :=
  modify fun s => { s with nodeCache := env.cache.put s.nodeCache pos node }

def decryptBlock (key : Key) (mac : Mac) (iv : Iv) : StoreM κ Bytes := do
  let cipher ← readBlock pos
  match env.crypto.decrypt cipher key iv none mac with
  | some plain => return plain
  | none => raise .decryptFailed "aes-128-gcm decryption failed"

def readMhtNode (key : Key) (mac : Mac) (iv : Iv) : StoreM κ (MhtNode Key Mac) := do
  let s ← get
  set { s with nodeCache := (env.cache.get s.nodeCache pos).2 }
  match (env.cache.get s.nodeCache pos).1 with
  | some node => return node
  | none =>
    let plain ← decryptBlock env pos key mac iv
    let node := env.fromBytes plain
    putNode env pos node
    return node

def readDataNode (entry : MhtNodeEntry Key Mac) : StoreM κ Bytes :=
  decryptBlock env entry.pos entry.key entry.mac (zeroIv env)

def rootMhtNode (rootKey : Key) (rootMeta : RootMhtMeta Iv Mac) : StoreM κ (MhtNode Key Mac) :=
  readMhtNode env rootMeta.pos rootKey rootMeta.mac rootMeta.iv

def appendRootMhtNode (rootKey : Key) (node : MhtNode Key Mac) : StoreM κ (RootMhtMeta Iv Mac) := do
  let s ← get
  set { s with draws := s.draws + 1 }
  let iv := env.crypto.randomIv s.draws
  let (cipher, mac) := env.crypto.encrypt (env.asBytes node) rootKey iv none
  let pos ← appendBlocks [cipher]
  putNode env pos node
  return ⟨pos, mac, iv⟩

/-- The loops of `append_mht_nodes` and `append_data_nodes`: the ciphertexts and the entries of new
nodes. -/
def sealNodes (pos : Nat) : List Bytes → StoreM κ (List Bytes × List (MhtNodeEntry Key Mac))
  | [] => return ([], [])
  | plain :: plains => do
    let key ← randomKey env
    let (cipher, mac) := env.crypto.encrypt plain key (zeroIv env) none
    let (ciphers, entries) ← sealNodes (pos + 1) plains
    return (cipher :: ciphers, ⟨pos, key, mac⟩ :: entries)

def putNodes (pos : Nat) : List (MhtNode Key Mac) → StoreM κ Unit
  | [] => return
  | node :: nodes => do
    putNode env pos node
    putNodes (pos + 1) nodes

def appendMhtNodes (nodes : List (MhtNode Key Mac)) : StoreM κ (List (MhtNodeEntry Key Mac)) := do
  -- `Buf::alloc`
  if nodes.length = 0 then
    raise .invalidArgs "num_blocks must be greater than 0 for allocation"
  let (ciphers, entries) ← sealNodes env (← get).blockLog.length (nodes.map env.asBytes)
  putNodes env (← get).blockLog.length nodes
  let _ ← appendBlocks ciphers
  return entries

def appendDataNodes (nodes : List Bytes) : StoreM κ (List (MhtNodeEntry Key Mac)) := do
  if nodes.length = 0 then return []
  let (ciphers, entries) ← sealNodes env (← get).blockLog.length nodes
  let _ ← appendBlocks ciphers
  return entries

end MhtStorage

/-! ## Building the tree -/

/-- `chunks(n)` of a slice: pieces of `n` elements, the last one possibly shorter. -/
def chunksOf {α : Type} (n : Nat) (l : List α) : List (List α) :=
  (List.range ((l.length + n - 1) / n)).map fun i => (l.drop (i * n)).take n

structure LevelBuilder (Key Mac : Type) where
  levelEntries : List (MhtNodeEntry Key Mac)
  totalDataNodes : Nat
  height : Nat
  previousIncompleteNode : Option (MhtNode Key Mac)

namespace LevelBuilder

variable (b : LevelBuilder Key Mac)

def buildLastNode (entries : List (MhtNodeEntry Key Mac)) : MhtNode Key Mac :=
  let maxDataNodes := MhtNode.maxNumDataNodes b.height
  let incompleteNodes := b.totalDataNodes % maxDataNodes
  MhtNode.ofEntries env b.height (if incompleteNodes = 0 then maxDataNodes else incompleteNodes)
    entries

/-- The complete entries of the previous node take part in the build. -/
def allLevelEntries : Res (List (MhtNodeEntry Key Mac)) :=
  match b.previousIncompleteNode with
  | some node => do
    let n ← node.numCompleteChildren
    .ok (node.entries.take n ++ b.levelEntries)
  | none => .ok b.levelEntries

def build : Res (List (MhtNode Key Mac)) := do
  let all ← b.allLevelEntries
  let pieces := chunksOf mhtNbranches all
  .ok (pieces.zipIdx.map fun (entries, nth) =>
    if nth + 1 = pieces.length then b.buildLastNode env entries
    else MhtNode.ofEntries env b.height (MhtNode.maxNumDataNodes b.height) entries)

end LevelBuilder

structure PreviousBuild (Key Mac : Type) where
  root : MhtNode Key Mac
  internalIncompleteNodes : List (Nat × MhtNode Key Mac)

namespace PreviousBuild

/-- The node behind the last valid entry; a failed read is unwrapped. -/
def lastChild (node : MhtNode Key Mac) : StoreM κ (MhtNode Key Mac) := do
  let last ← liftRes (checkedSub node.numValidEntries 1)
  match node.entries[last]? with
  | none => crash "index out of bounds"
  | some entry =>
    unwrap (MhtStorage.readMhtNode env entry.pos entry.key entry.mac (MhtStorage.zeroIv env))

/-- The loop of `collect_incomplete_nodes`, which goes down the right spine. -/
def collectFrom : Nat → MhtNode Key Mac → StoreM κ (List (Nat × MhtNode Key Mac))
  | 0, _ => crash "out of fuel"
  | fuel + 1, node =>
    if node.isIncomplete then
      if MhtNode.isLowestLevel node.height then return [(node.height, node)]
      else do
        let below ← collectFrom fuel (← lastChild env node)
        return (node.height, node) :: below
    else return []

def new (root : MhtNode Key Mac) : StoreM κ (PreviousBuild Key Mac) := do
  if !root.isIncomplete || MhtNode.isLowestLevel root.height then return ⟨root, []⟩
  let nodes ← collectFrom env root.height (← lastChild env root)
  return ⟨root, nodes⟩

def targetNode (p : PreviousBuild Key Mac) (height : Nat) : Option (MhtNode Key Mac) :=
  if height = p.root.height then some p.root else p.internalIncompleteNodes.lookup height

end PreviousBuild

namespace TreeBuilder

/-- `calc_target_height`; `ilog` panics on zero. -/
def calcTargetHeight (numDataNodes : Nat) : Res Nat :=
  if numDataNodes = 0 then panicWith "argument of integer logarithm must be positive"
  else
    let height := Nat.log mhtNbranches numDataNodes
    .ok (if mhtNbranches ^ height < numDataNodes ∨ height = 0 then height + 1 else height)

/-- `build_hierarchy`, with the number of levels above the current one. -/
def buildHierarchy (previous : Option (PreviousBuild Key Mac)) (totalDataNodes : Nat) :
    Nat → List (MhtNodeEntry Key Mac) → Nat → StoreM κ (MhtNode Key Mac)
  | above, levelEntries, height => do
    let nodes ← liftRes (LevelBuilder.build env
      ⟨levelEntries, totalDataNodes, height, previous.bind (·.targetNode height)⟩)
    match above with
    | 0 =>
      match nodes.getLast? with
      | some root => return root
      | none => crash "called `Option::unwrap()` on a `None` value"
    | above + 1 =>
      let nextLevelEntries ← MhtStorage.appendMhtNodes env nodes
      buildHierarchy previous totalDataNodes above nextLevelEntries (height + 1)

def previousBuiltRoot : Option (MhtNode Key Mac) → StoreM κ (Option (PreviousBuild Key Mac))
  | none => return none
  | some root => do return some (← PreviousBuild.new env root)

def build (previous : Option (PreviousBuild Key Mac)) (dataNodeEntries : List (MhtNodeEntry Key Mac)) :
    StoreM κ (MhtNode Key Mac) := do
  let total := dataNodeEntries.length + (previous.map (·.root.numDataNodes)).getD 0
  let target ← liftRes (calcTargetHeight total)
  buildHierarchy env previous total (target - 1) dataNodeEntries 1

end TreeBuilder

/-! ## Searching the tree -/

/-- The buffer is the list of its blocks. -/
structure SearchCtx where
  pos : Nat
  dataBuf : List Bytes
  offset : Nat
  num : Nat
  isCompleted : Bool

namespace SearchCtx

def new (pos : Nat) (dataBuf : List Bytes) : SearchCtx := ⟨pos, dataBuf, 0, dataBuf.length, false⟩

/-- Fills the block of the buffer at the current offset. -/
def fill {σ : Type} (ctx : SearchCtx) (block : Bytes) : EStateM Fault σ SearchCtx :=
  if ctx.offset < ctx.dataBuf.length then
    return { ctx with dataBuf := ctx.dataBuf.set ctx.offset block, offset := ctx.offset + 1 }
  else crash "range end index out of range for slice"

/-- Reads data nodes one after the other into the buffer. -/
def readDataNodes : List (MhtNodeEntry Key Mac) → SearchCtx → StoreM κ SearchCtx
  | [], ctx => return ctx
  | entry :: entries, ctx => do
    let block ← MhtStorage.readDataNode env entry
    readDataNodes entries (← ctx.fill block)

/-- Copies buffered data nodes one after the other into the buffer. -/
def copyDataNodes {σ : Type} : List Bytes → SearchCtx → EStateM Fault σ SearchCtx
  | [], ctx => return ctx
  | node :: nodes, ctx => do copyDataNodes nodes (← ctx.fill node)

end SearchCtx

def readMhtNodes : List (MhtNodeEntry Key Mac) → StoreM κ (List (MhtNode Key Mac))
  | [] => return []
  | entry :: entries => do
    let node ← MhtStorage.readMhtNode env entry.pos entry.key entry.mac (MhtStorage.zeroIv env)
    return node :: (← readMhtNodes entries)

/-- `align_up(x, n) / n`. -/
def divCeil (x n : Nat) : Nat := (x + n - 1) / n

/-- `search_hierarchy`: all nodes of one level that cover the range are searched together. -/
def searchHierarchy : Nat → List (MhtNode Key Mac) → SearchCtx → StoreM κ SearchCtx
  | 0, _, _ => crash "attempt to subtract with overflow"
  | below + 1, levelTargets, ctx => do
    let nextLevelMax := MhtNode.maxNumDataNodes below
    let skipped := ctx.pos / nextLevelMax
    let pos := ctx.pos - skipped * nextLevelMax
    let needed := divCeil (ctx.num + pos) nextLevelMax
    let targets := ((levelTargets.flatMap (·.entries)).drop skipped).take needed
    if MhtNode.isLowestLevel (below + 1) then
      let ctx ← SearchCtx.readDataNodes env targets { ctx with pos := pos }
      return { ctx with isCompleted := true }
    else
      searchHierarchy below (← readMhtNodes env targets) { ctx with pos := pos }

/-! ## The buffer of appended blocks -/

structure AppendDataBuf (Key Mac : Type) where
  nodeQueue : List Bytes
  nodeQueueCap : Nat
  entryQueue : List (MhtNodeEntry Key Mac)
  entryQueueCap : Nat
  startPos : Nat

namespace AppendDataBuf

def maxEntryQueueCap : Nat := mhtNbranches ^ 3

/-- `size_of::<MhtNodeEntry>()`. -/
@[irreducible] def entrySize : Nat := 40

def calcQueueCap (capacity appendPos : Nat) : Res (Nat × Nat) := do
  let nodeQueueCap := capacity / 2
  let maxCap ← checkedSub maxEntryQueueCap appendPos
  let remainCap := (capacity - nodeQueueCap) * blockSize / entrySize
  .ok (nodeQueueCap, min maxCap remainCap)

def new (capacity startPos : Nat) : Res (AppendDataBuf Key Mac) := do
  let (nodeQueueCap, entryQueueCap) ← calcQueueCap capacity startPos
  .ok ⟨[], nodeQueueCap, [], entryQueueCap, startPos⟩

variable (b : AppendDataBuf Key Mac)

def numAppend : Nat := b.nodeQueue.length + b.entryQueue.length

def isFull : Bool := b.entryQueueCap ≤ b.entryQueue.length

def flushNodeQueue : StoreM κ (AppendDataBuf Key Mac) := do
  let entries ← MhtStorage.appendDataNodes env b.nodeQueue
  return { b with entryQueue := b.entryQueue ++ entries, nodeQueue := [] }

def appendDataNodes (nodes : List Bytes) : StoreM κ (AppendDataBuf Key Mac) :=
  if b.isFull then raise .outOfMemory "cache out of capacity"
  else
    let b := { b with nodeQueue := b.nodeQueue ++ nodes }
    if b.nodeQueueCap ≤ b.nodeQueue.length then b.flushNodeQueue env else return b

def flush : StoreM κ (List (MhtNodeEntry Key Mac) × AppendDataBuf Key Mac) := do
  let b ← b.flushNodeQueue env
  return (b.entryQueue, { b with entryQueue := [], startPos := b.startPos + b.entryQueue.length })

/-- The entry queue is searched first, then the node queue. Once an entry was read, the second search
starts at the front of the node queue. -/
def searchDataNodes (ctx : SearchCtx) : StoreM κ SearchCtx :=
  if ctx.pos + ctx.num ≤ b.startPos then return ctx
  else do
    let inside := b.startPos ≤ ctx.pos
    let (startNth, endNth, offset, num) :=
      if inside then (ctx.pos - b.startPos, ctx.pos - b.startPos + ctx.num, 0, ctx.num)
      else
        let endNth := ctx.pos + ctx.num - b.startPos
        (0, endNth, ctx.num - endNth, ctx.num - endNth)
    let entries := (b.entryQueue.drop startNth).take (endNth - startNth)
    let read ← SearchCtx.readDataNodes env entries { ctx with num := num, offset := offset }
    let startNth := if entries.length = 0 then startNth else 0
    let nodes := (b.nodeQueue.drop startNth).take (endNth - entries.length - startNth)
    let read ← SearchCtx.copyDataNodes nodes read
    -- the loops count in a local offset
    return { read with offset := ctx.offset, isCompleted := ctx.isCompleted || inside }

end AppendDataBuf

/-! ## The log -/

structure Mht (κ Key Iv Mac : Type) where
  root : Option (RootMhtMeta Iv Mac × MhtNode Key Mac)
  rootKey : Key
  dataBuf : AppendDataBuf Key Mac
  storage : MhtStorage κ

namespace Mht

@[irreducible] def appendBufCapacity : Nat := 2048

abbrev M (κ Key Iv Mac : Type) := EStateM Fault (Mht κ Key Iv Mac)

/-- An operation on the storage of the tree. -/
def onStorage {α : Type} (x : StoreM κ α) : M κ Key Iv Mac α := fun m =>
  match x m.storage with
  | .ok a s => .ok a { m with storage := s }
  | .error e s => .error e { m with storage := s }

def new (storage : MhtStorage κ) (rootKey : Key) : Res (Mht κ Key Iv Mac) := do
  let dataBuf ← AppendDataBuf.new appendBufCapacity 0
  .ok ⟨none, rootKey, dataBuf, storage⟩

/-- `open`. -/
def openWith (rootKey : Key) (rootMeta : RootMhtMeta Iv Mac) : StoreM κ (Mht κ Key Iv Mac) := do
  let rootNode ← MhtStorage.rootMhtNode env rootKey rootMeta
  let dataBuf ← liftRes (AppendDataBuf.new appendBufCapacity rootNode.numDataNodes)
  return ⟨some (rootMeta, rootNode), rootKey, dataBuf, ← get⟩

variable (m : Mht κ Key Iv Mac)

def rootMeta : Option (RootMhtMeta Iv Mac) := m.root.map Prod.fst

def rootNode : Option (MhtNode Key Mac) := m.root.map Prod.snd

def totalDataNodes : Nat :=
  m.dataBuf.numAppend + (m.rootNode.map (·.numDataNodes)).getD 0

def search (ctx : SearchCtx) : M κ Key Iv Mac SearchCtx := do
  let m ← get
  match m.rootNode with
  | none => raise .notFound "root MHT node not found"
  | some rootNode =>
    if m.totalDataNodes < ctx.pos + ctx.num then
      raise .invalidArgs "search out of MHT capacity"
    let ctx ← onStorage (m.dataBuf.searchDataNodes env ctx)
    if ctx.isCompleted then return ctx
    onStorage (searchHierarchy env rootNode.height [rootNode] ctx)

def doBuild (dataNodeEntries : List (MhtNodeEntry Key Mac)) : M κ Key Iv Mac Unit := do
  let m ← get
  let previous ← onStorage (TreeBuilder.previousBuiltRoot env m.rootNode)
  let node ← onStorage (TreeBuilder.build env previous dataNodeEntries)
  let info ← onStorage (MhtStorage.appendRootMhtNode env m.rootKey node)
  modify fun m => { m with root := some (info, node) }

def flush : M κ Key Iv Mac Unit := do
  let m ← get
  let (entries, dataBuf) ← onStorage (m.dataBuf.flush env)
  modify fun m => { m with dataBuf := dataBuf }
  doBuild env entries

def appendDataNodes (nodes : List Bytes) : M κ Key Iv Mac Unit := do
  let m ← get
  let dataBuf ← onStorage (m.dataBuf.appendDataNodes env nodes)
  modify fun m => { m with dataBuf := dataBuf }
  if dataBuf.isFull then flush env

end Mht

/-- `CryptoLog::read`: the buffer once it is filled. -/
def CryptoLog.read (pos : Nat) (buf : List Bytes) : Mht.M κ Key Iv Mac (List Bytes) := do
  let ctx ← Mht.search env (.new pos buf)
  return ctx.dataBuf

/-- The calls that change a `CryptoLog`. -/
inductive CryptoLog.Op
  | append (blocks : List Bytes)
  | flush

def CryptoLog.exec : CryptoLog.Op → Mht.M κ Key Iv Mac Unit
  | .append blocks => Mht.appendDataNodes env blocks
  | .flush => Mht.flush env

end OmegaOsx.MlsDisk
