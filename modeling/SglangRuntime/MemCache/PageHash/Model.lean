import SglangRuntime.Foundation.HashChain
import SglangRuntime.Foundation.TrieOrder
import SglangRuntime.Foundation.TrieSpan
import SglangRuntime.MemCache.KeyWalk

/-!
# Memory cache — page hashes of the unified tree

The hash lists that the nodes of `UnifiedTreeCore` carry (`hash_value`, and `event_hash_value` of
nodes with a cache salt), and the four places that fill them: `_add_new_node` while storage is
attached, `insert_host`, `KVCacheEventRecorder` and `backfill_missing_hash_values`.

The digest of a page is a function of the digest before it and of the units of the page
(`get_native_hash`).  The walk of a device insertion is the splits that it makes and the node that it
adds.  A result of `none` is an exception.
-/

namespace SglangRuntime.PageHash

open Foundation

variable {Digest : Type}

structure HashConfig (Digest : Type) where
  pageSize : Nat
  pageSize_pos : 0 < pageSize
  /-- the native hash of one page -/
  pageHash : Option Digest → List LogicalUnit → Digest
  /-- `sha256(b"sglang-cache-salt-v1\0" + cache_salt)` -/
  saltHash : String → Digest
  enableKvCacheEvents : Bool

/-- The hash lists of a `UnifiedTreeNode`. -/
structure NodeHashes (Digest : Type) where
  hashValue : Option (List Digest)
  eventHashValue : Option (List Digest)

abbrev HashTree (Digest : Type) := Trie RadixKey ChildKey (NodeHashes Digest)

abbrev HashConfig.ops (c : HashConfig Digest) :
    KeyOps RadixKey (Namespace × LogicalUnit) ChildKey :=
  RadixKey.ops c.pageSize c.pageSize_pos

section Compute

variable (c : HashConfig Digest) (T : HashTree Digest)

variable (i : NodeId)

def hashOf : Option (List Digest) := (T.dataOf i).bind NodeHashes.hashValue

def eventHashOf : Option (List Digest) := (T.dataOf i).bind NodeHashes.eventHashValue

def saltOf : Option String := (T.keyOf i).bind RadixKey.cacheSalt

/-- `get_hash_str`, of a key with a page size. -/
def getHashStr (key : RadixKey) (priorHash : Option Digest) : List Digest :=
  chainOf c.pageHash c.pageSize priorHash key.logicalUnits

/-- The `parent_hash` of `compute_node_hash_values`. -/
def parentHash : Option Digest := do
  let p ← T.parentOf i
  let hashes ← hashOf T p
  let key ← T.keyOf p
  if 0 < key.len then hashes.getLast? else none

def computeNodeHashValues : Option (List Digest) :=
  (T.keyOf i).map fun key => getHashStr c key (parentHash T i)

variable (hashes : List Digest)

def setHash : HashTree Digest :=
  T.modifyData i fun a => { a with hashValue := some hashes }

def setEventHash : HashTree Digest :=
  T.modifyData i fun a => { a with eventHashValue := some hashes }

end Compute

/-! ### Hashes for events -/

section Events

variable (c : HashConfig Digest)

/-- The last loop of `compute_node_event_hash_values`, over the nodes from the top down. -/
def fillEventHashes : List NodeId → Digest → HashTree Digest → Option (HashTree Digest)
  | [], _, T => some T
  | i :: l, prior, T => do
    let key ← T.keyOf i
    let hashes := getHashStr c key (some prior)
    fillEventHashes l (hashes.getLast?.getD prior) (setEventHash T i hashes)

section

variable (T : HashTree Digest)

section

variable (i : NodeId)

/-- `compute_node_event_hash_values` of a node with a cache salt. -/
def computeNodeEventHashValues (salt : String) : Option (HashTree Digest × List Digest) :=
  match eventHashOf T i with
  | some hashes => some (T, hashes)
  | none =>
    let missing := (T.path i).takeWhile fun j => eventHashOf T j = none
    let current := ((T.path i).dropWhile fun j => eventHashOf T j = none).head?
    if (∀ j ∈ missing, saltOf T j = some salt) ∧ ∀ j, current = some j → saltOf T j = some salt then do
      let prior := ((current.bind (eventHashOf T)).bind List.getLast?).getD (c.saltHash salt)
      let T ← fillEventHashes c missing.reverse prior T
      let hashes ← eventHashOf T i
      return (T, hashes)
    else none

/-- The first lines of `_node_event_hash_values`: the hashes of the node if it has none. -/
def ensureHash : Option (HashTree Digest) :=
  match hashOf T i with
  | some _ => some T
  | none => (computeNodeHashValues c T i).map (setHash T i)

/-- `_node_event_hash_values`. -/
def nodeEventHashValues : Option (HashTree Digest × List Digest) := do
  let T ← ensureHash c T i
  let key ← T.keyOf i
  match key.cacheSalt with
  | some salt => computeNodeEventHashValues c T i salt
  | none => (hashOf T i).map fun hashes => (T, hashes)

/-- The list that `_parent_block_hash` links to, or `none` at the top; a node with a cache salt needs
the event hashes of its parent. -/
def parentBlockHash : Option (Option Digest) := do
  let p ← T.parentOf i
  if p = T.root then some none
  else match saltOf T i with
    | some _ => (eventHashOf T p).map List.getLast?
    | none => some ((hashOf T p).bind List.getLast?)

/-- The hash part of `record_store`: one digest for each page. -/
def recordStore : Option (HashTree Digest) :=
  if c.enableKvCacheEvents then do
    let (T, hashes) ← nodeEventHashValues c T i
    let _ ← parentBlockHash T i
    let key ← T.keyOf i
    if numPagesOf c.pageSize key.len ≤ hashes.length then some T else none
  else some T

/-- The hash part of `record_remove`. -/
def recordRemove : Option (HashTree Digest) :=
  if c.enableKvCacheEvents then do
    let (T, hashes) ← nodeEventHashValues c T i
    let key ← T.keyOf i
    if numPagesOf c.pageSize key.len ≤ hashes.length then some T else none
  else some T

end

end

end Events

/-! ### The tree -/

structure State (Digest : Type) where
  tree : HashTree Digest
  enableStorage : Bool

section Tree

variable (c : HashConfig Digest)

/-- `split_node_hash_value`, for both lists: what the new parent gets. -/
def NodeHashes.front (pages : Nat) (a : NodeHashes Digest) : NodeHashes Digest :=
  ⟨a.hashValue.map (·.take pages), a.eventHashValue.map (·.take pages)⟩

/-- What the child keeps. -/
def NodeHashes.rest (pages : Nat) (a : NodeHashes Digest) : NodeHashes Digest :=
  ⟨a.hashValue.map (·.drop pages), a.eventHashValue.map (·.drop pages)⟩

/-- `_split_node`. -/
def splitNode (T : HashTree Digest) (i : NodeId) (dTop dRest : ChildKey) (len : Nat) :
    HashTree Digest :=
  T.split c.ops i dTop dRest len (NodeHashes.front (len / c.pageSize))
    (NodeHashes.rest (len / c.pageSize))

variable (st : State Digest)

/-- `_add_new_node`. -/
def addNewNode (parent : NodeId) (childKey : ChildKey) (key : RadixKey) :
    Option (State Digest) := do
  let newNode := st.tree.counter
  let T := st.tree.addLeaf parent childKey key ⟨none, none⟩
  let T ← if st.enableStorage then (computeNodeHashValues c T newNode).map (setHash T newNode)
    else some T
  let T ← recordStore c T newNode
  return { st with tree := T }

structure InsertHostWalk (Digest : Type) where
  node : NodeId
  key : RadixKey
  hashValue : List Digest

/-- The `while` loop of `insert_host`. -/
def insertHostLoop : Nat → HashTree Digest → InsertHostWalk Digest →
    Option (HashTree Digest × InsertHostWalk Digest)
  | 0, _, _ => none
  | fuel + 1, T, w =>
    if w.key.len = 0 then some (T, w)
    else do
      let childKey ← w.key.childKey c.pageSize
      match T.child w.node childKey with
      | none => some (T, w)
      | some child => do
        let nodeKey ← T.keyOf child
        let prefixLen ← nodeKey.matchLen w.key c.pageSize
        let key := w.key.sliceFrom prefixLen
        let hashValue := w.hashValue.drop (prefixLen / c.pageSize)
        if prefixLen < nodeKey.len then do
          let dTop ← nodeKey.childKey c.pageSize
          let dRest ← (nodeKey.sliceFrom prefixLen).childKey c.pageSize
          insertHostLoop fuel (splitNode c T child dTop dRest prefixLen) ⟨T.counter, key, hashValue⟩
        else insertHostLoop fuel T ⟨child, key, hashValue⟩

/-- `insert_host`; `drops` says whether the refill is dropped below a node without a backup. -/
def insertHost (node : NodeId) (key : RadixKey) (hashValue : List Digest)
    (drops : NodeId → Bool) : Option (State Digest) := do
  let (T, w) ← insertHostLoop c (key.len + 1) st.tree ⟨node, key, hashValue⟩
  if w.key.len = 0 || (w.node ≠ T.root && drops w.node) then return { st with tree := T }
  else
    let childKey ← w.key.childKey c.pageSize
    return { st with tree := T.addLeaf w.node childKey w.key ⟨some w.hashValue, none⟩ }

/-- One iteration of `backfill_missing_hash_values`. -/
def backfillNode (T : HashTree Digest) (i : NodeId) : Option (HashTree Digest) :=
  if i ≠ T.root ∧ hashOf T i = none then (computeNodeHashValues c T i).map (setHash T i) else some T

/-- `backfill_missing_hash_values`, over the nodes in the order in which the stack gives them. -/
def backfillMissingHashValues (T : HashTree Digest) : Option (HashTree Digest) :=
  (T.popOrder T.counter [T.root]).foldlM (backfillNode c) T

/-- The part of `apply_runtime_config` and of `detach` that turns storage on and off. -/
def setStorage (st : State Digest) (enable : Bool) : Option (State Digest) := do
  let T ← if enable && !st.enableStorage then backfillMissingHashValues c st.tree else some st.tree
  return ⟨T, enable⟩

end Tree

/-! ### Steps -/

inductive Event (Digest : Type) where
  | addNewNode (parent : NodeId) (childKey : ChildKey) (key : RadixKey)
  | split (i : NodeId) (dTop dRest : ChildKey) (len : Nat)
  | insertHost (node : NodeId) (key : RadixKey) (hashValue : List Digest) (drops : NodeId → Bool)
  | removeLeaf (i : NodeId) (d : ChildKey)
  | recordStore (i : NodeId)
  | recordRemove (i : NodeId)
  | setStorage (enable : Bool)
  | reset (enable : Bool)

def State.init (enable : Bool) : State Digest :=
  ⟨Trie.empty ⟨[], none, none, false, none⟩ ⟨some [], none⟩, enable⟩

section

variable (c : HashConfig Digest)

def exec (st : State Digest) : Event Digest → Option (State Digest)
  | .addNewNode parent childKey key => addNewNode c st parent childKey key
  | .split i dTop dRest len => some { st with tree := splitNode c st.tree i dTop dRest len }
  | .insertHost node key hashValue drops => insertHost c st node key hashValue drops
  | .removeLeaf i d => some { st with tree := st.tree.removeLeaf i d }
  | .recordStore i => (recordStore c st.tree i).map fun T => { st with tree := T }
  | .recordRemove i => (recordRemove c st.tree i).map fun T => { st with tree := T }
  | .setStorage enable => setStorage c st enable
  | .reset enable => some (State.init enable)

/-- The units on the root path of a node. -/
def pathUnits (T : HashTree Digest) (i : NodeId) : List LogicalUnit :=
  (T.spellTo c.ops i).map Prod.snd

/-- The pages on the root path above a node. -/
def pagesAbove (T : HashTree Digest) (i : NodeId) : Nat :=
  (T.depth c.ops i - T.segLen c.ops i) / c.pageSize

end

/-- A key below a node is of the node's namespace. -/
def Continues (T : HashTree Digest) (p : NodeId) (key : RadixKey) : Prop :=
  p = T.root ∨ (T.keyOf p).map RadixKey.namespaceOf = some key.namespaceOf

/-- What the callers see to: a new node hangs where its key continues the path, and the hashes that
`insert_host` gets are those of its tokens behind the path of the node. -/
def Enabled (c : HashConfig Digest) (st : State Digest) : Event Digest → Prop
  | .addNewNode parent childKey key => Trie.LeafOk c.ops st.tree parent childKey key ∧
      Continues st.tree parent key
  | .split i dTop dRest len => ∃ k, Trie.SplitOk c.ops st.tree i dTop dRest len k
  | .insertHost node key hashValue _ => st.tree.Live node ∧ c.pageSize ∣ key.len ∧
      Continues st.tree node key ∧
      hashValue = (chainOf c.pageHash c.pageSize none
        (pathUnits c st.tree node ++ key.logicalUnits)).drop (st.tree.depth c.ops node / c.pageSize)
  | .removeLeaf i d => Trie.RemoveOk c.ops st.tree i d
  | .recordStore i => st.tree.Live i ∧ i ≠ st.tree.root
  | .recordRemove i => st.tree.Live i ∧ i ≠ st.tree.root
  | .setStorage _ => True
  | .reset _ => True

inductive Run (c : HashConfig Digest) : State Digest → Prop
  | init (enable : Bool) : Run c (State.init enable)
  | step {st st' : State Digest} {e : Event Digest} : Run c st → Enabled c st e →
      exec c st e = some st' → Run c st'

end SglangRuntime.PageHash
