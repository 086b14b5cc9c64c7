import SglangRuntime.MemCache.KeyWalk

/-!
# Memory cache — `RadixCache`

The tree cache of `mem_cache/radix_cache.py` together with the eviction strategies of
`mem_cache/evict_policy.py`, operation by operation.  A node is an identifier into a
`Foundation.Trie`; its `value` and `lock_ref` are the trie's data, and what only the eviction
strategies read (times, hit count, priority) is kept beside it, in `nodeMeta`.

An operation that can raise (a `KeyError`, a `ValueError` of `match`, an assertion) returns an
`Option`; `none` is the exception.  `time.monotonic()` is the argument `now`.  A heap pop takes a
minimal entry; which one, among entries that compare equal, depends on the heap's layout, so it is
left to an arbitrary `rank`.
-/

namespace SglangRuntime

open Foundation

inductive EvictionPolicy where
  | lru | lfu | fifo | mru | filo | priority | slru (protectedThreshold : Int)
deriving DecidableEq, Repr

/-- What the eviction strategies read of a node. -/
structure NodeMeta where
  lastAccessTime : Int
  creationTime : Int
  hitCount : Int
  priority : Int
deriving DecidableEq, Repr

/-- `get_priority`; a strategy that returns one number returns it as the first component. -/
def EvictionPolicy.getPriority (policy : EvictionPolicy) (m : NodeMeta) : Int × Int :=
  match policy with
  | .lru => (m.lastAccessTime, 0)
  | .lfu => (m.hitCount, m.lastAccessTime)
  | .fifo => (m.creationTime, 0)
  | .mru => (-m.lastAccessTime, 0)
  | .filo => (-m.creationTime, 0)
  | .priority => (m.priority, m.lastAccessTime)
  | .slru protectedThreshold =>
    (if m.hitCount ≥ protectedThreshold then 1 else 0, m.lastAccessTime)

structure CacheInitParams where
  pageSize : Nat
  pageSize_pos : 0 < pageSize
  isEagle : Bool
  disable : Bool
  evictionPolicy : EvictionPolicy

namespace CacheInitParams

section

variable (c : CacheInitParams)

/-- The segments of the tree, at this cache's page size. -/
abbrev ops : KeyOps RadixKey (Namespace × LogicalUnit) ChildKey :=
  RadixKey.ops c.pageSize c.pageSize_pos

/-- A key as the operations read it: in bigram view when `is_eagle`, cut to whole pages. -/
def viewKey (key : RadixKey) : RadixKey :=
  (key.maybeToBigramView c.isEagle).pageAligned c.pageSize

@[simp] theorem namespaceOf_viewKey (key : RadixKey) :
    (c.viewKey key).namespaceOf = key.namespaceOf := by
  simp only [viewKey, RadixKey.pageAligned, RadixKey.maybeToBigramView, RadixKey.sliceTo,
    RadixKey.getSlice]
  split_ifs <;> rfl

end

end CacheInitParams

/-- The fields of a `TreeNode` that the tree's own operations read and write. -/
structure TreeNodeData where
  value : Option (List Slot)
  lockRef : Int
deriving DecidableEq, Repr

variable (n : Nat)

variable (a : TreeNodeData)

/-- The data of the front part of a node cut at `n`; the lock count is inherited. -/
def TreeNodeData.sliceTo : TreeNodeData :=
  { a with value := a.value.map (·.take n) }

/-- The data of the part a node cut at `n` keeps. -/
def TreeNodeData.sliceFrom : TreeNodeData :=
  { a with value := a.value.map (·.drop n) }

@[simp] theorem TreeNodeData.lockRef_sliceTo :
    (a.sliceTo n).lockRef = a.lockRef := rfl

@[simp] theorem TreeNodeData.lockRef_sliceFrom :
    (a.sliceFrom n).lockRef = a.lockRef := rfl

structure RadixCache where
  tree : Trie RadixKey ChildKey TreeNodeData
  nodeMeta : NodeId → NodeMeta
  evictableSize : Int
  protectedSize : Int
  evictableLeaves : Finset NodeId

/-- `InsertParams`; a caller that supplies `value` supplies a slot for every unit of the key. -/
structure InsertParams (c : CacheInitParams) where
  key : RadixKey
  value : Option (List Slot)
  priority : Option Int
  chunked : Bool
  value_long : ∀ v, value = some v → (key.maybeToBigramView c.isEagle).len ≤ v.length

namespace RadixCache

/-- `-sys.maxsize`. -/
def minPriority : Int := -9223372036854775807

def reset : RadixCache where
  tree := Trie.empty ⟨[], none, none, false, none⟩ ⟨some [], 1⟩
  nodeMeta := fun _ => ⟨0, 0, 0, minPriority⟩
  evictableSize := 0
  protectedSize := 0
  evictableLeaves := ∅

variable (c : CacheInitParams)

variable (s : RadixCache)

variable (i : NodeId)

def valueOf : Option (List Slot) :=
  (s.tree.dataOf i).bind TreeNodeData.value

def lockRefOf : Int := ((s.tree.dataOf i).map (·.lockRef)).getD 0

/-- `node.evicted`. -/
def evicted : Bool := (s.valueOf i).isNone

def keyLen : Nat := ((s.tree.keyOf i).map RadixKey.len).getD 0

/-- A change of what the eviction strategies read of node `i`. -/
def updateMeta (f : NodeMeta → NodeMeta) : RadixCache :=
  { s with nodeMeta := Function.update s.nodeMeta i (f (s.nodeMeta i)) }

/-- `node.last_access_time = now`. -/
def touch (now : Int) : RadixCache :=
  s.updateMeta i fun m => { m with lastAccessTime := now }

/-- `node.priority = max(node.priority, priority)`. -/
def raisePriority (priority : Int) : RadixCache :=
  s.updateMeta i fun m => { m with priority := max m.priority priority }

def incHitCount (chunked : Bool) : RadixCache :=
  if chunked then s else s.updateMeta i fun m => { m with hitCount := m.hitCount + 1 }

def updateLeafStatus : RadixCache :=
  if s.evicted i || decide (s.lockRefOf i > 0) then
    { s with evictableLeaves := s.evictableLeaves.erase i }
  else if (s.tree.childIds i).any fun child => !s.evicted child then
    { s with evictableLeaves := s.evictableLeaves.erase i }
  else { s with evictableLeaves := insert i s.evictableLeaves }

/-- `_split_node(child.key, child, split_len)`. -/
def splitNode (key : RadixKey) (child : NodeId) (splitLen : Nat) (now : Int) :
    Option (RadixCache × NodeId) := do
  let dRest ← (key.sliceFrom splitLen).childKey c.pageSize
  let dTop ← key.childKey c.pageSize
  let newNode := s.tree.counter
  let childMeta := s.nodeMeta child
  let tree := s.tree.split c.ops child dTop dRest splitLen (.sliceTo splitLen) (.sliceFrom splitLen)
  return ({ s with
    tree := tree
    nodeMeta := Function.update s.nodeMeta newNode ⟨now, now, childMeta.hitCount, childMeta.priority⟩ },
    newNode)

/-- The child key of what is left of the key; both walks keep the old one when nothing is. -/
def nextChildKey (key : RadixKey) (childKey : ChildKey) : Option ChildKey :=
  if key.len > 0 then key.childKey c.pageSize else some childKey

/-! ### Lookup -/

/-- The `while` loop of `_match_prefix_helper`. -/
def matchLoop (now : Int) : Nat → RadixCache → NodeId → RadixKey → ChildKey → List Slot →
    Option (RadixCache × List Slot × NodeId)
  | 0, _, _, _, _, _ => none
  | fuel + 1, s, node, key, childKey, value =>
    if key.len > 0 then
      match s.tree.child node childKey with
      | none => some (s, value, node)
      | some child => do
        let s := s.touch child now
        let childSegment ← s.tree.keyOf child
        let prefixLen ← childSegment.matchLen key c.pageSize
        if prefixLen < childSegment.len then
          let (s, newNode) ← s.splitNode c childSegment child prefixLen now
          let v ← s.valueOf newNode
          return (s, value ++ v, newNode)
        else
          let v ← s.valueOf child
          let key := key.sliceFrom prefixLen
          let childKey ← nextChildKey c key childKey
          matchLoop now fuel s child key childKey (value ++ v)
    else some (s, value, node)

variable (node : NodeId)

def matchPrefixHelper (key : RadixKey) (now : Int) : Option (RadixCache × List Slot × NodeId) := do
  let s := s.touch node now
  let childKey ← key.childKey c.pageSize
  matchLoop c now (key.len + 1) s node key childKey []

/-- `match_prefix`: the slots of the cached prefix and the node it ends at. -/
def matchPrefix (key : RadixKey) (now : Int) : Option (RadixCache × List Slot × NodeId) :=
  let key := key.maybeToBigramView c.isEagle
  if c.disable || key.len == 0 then some (s, [], s.tree.root)
  else
    let key := key.pageAligned c.pageSize
    if key.len == 0 then some (s, [], s.tree.root)
    else s.matchPrefixHelper c s.tree.root key now

/-! ### Insertion -/

/-- Where the walk of `_insert_helper` stands between two iterations. -/
structure InsertWalk where
  node : NodeId
  key : RadixKey
  childKey : ChildKey
  value : List Slot
  totalPrefixLength : Nat

/-- The node the walk goes on from: the one found, or the front part of it that matches. -/
def splitIfPartial (nodeKey : RadixKey) (node : NodeId) (prefixLen : Nat)
    (now : Int) : Option (RadixCache × NodeId) :=
  if prefixLen < nodeKey.len then s.splitNode c nodeKey node prefixLen now else some (s, node)

/-- The `while` loop of `_insert_helper`. -/
def insertLoop (now priority : Int) (chunked : Bool) : Nat → RadixCache → InsertWalk →
    Option (RadixCache × InsertWalk)
  | 0, _, _ => none
  | fuel + 1, s, w =>
    if w.key.len > 0 then
      match s.tree.child w.node w.childKey with
      | none => some (s, w)
      | some node => do
        let s := s.touch node now
        let nodeKey ← s.tree.keyOf node
        let prefixLen ← nodeKey.matchLen w.key c.pageSize
        let key := w.key.sliceFrom prefixLen
        let value := w.value.drop prefixLen
        let (s, node) ← s.splitIfPartial c nodeKey node prefixLen now
        let s := (s.raisePriority node priority).incHitCount node chunked
        let childKey ← nextChildKey c key w.childKey
        insertLoop now priority chunked fuel s
          ⟨node, key, childKey, value, w.totalPrefixLength + prefixLen⟩
    else some (s, w)

/-- The new leaf at the end of `_insert_helper`. -/
def insertLeaf (w : InsertWalk) (now priority : Int) (chunked : Bool) : RadixCache :=
  let newNode := s.tree.counter
  let s := { s with
    tree := s.tree.addLeaf w.node w.childKey w.key ⟨some w.value, 0⟩
    nodeMeta := Function.update s.nodeMeta newNode ⟨now, now, 0, priority⟩ }
  let s := s.incHitCount newNode chunked
  let s := { s with evictableSize := s.evictableSize + w.key.len }
  (s.updateLeafStatus w.node).updateLeafStatus newNode

def insertHelper (key : RadixKey) (value : List Slot)
    (priority : Option Int) (chunked : Bool) (now : Int) : Option (RadixCache × Nat × NodeId) := do
  let priority := priority.getD 0
  let s := (s.touch node now).raisePriority node priority
  if key.len == 0 then return (s, 0, node)
  let childKey ← key.childKey c.pageSize
  let (s, w) ← insertLoop c now priority chunked (key.len + 1) s ⟨node, key, childKey, value, 0⟩
  if w.key.len > 0 then
    return (s.insertLeaf w now priority chunked, w.totalPrefixLength, s.tree.counter)
  else return (s, w.totalPrefixLength, w.node)

/-- `insert`: the length of the prefix that was cached before and the node the key ends at. -/
def insert (params : InsertParams c) (now : Int) : Option (RadixCache × Nat × NodeId) :=
  if c.disable then some (s, 0, s.tree.root)
  else
    let key := c.viewKey params.key
    let value := match params.value with
      | some v => v.take key.len
      -- debug fallback: the token ids themselves
      | none => key.tokenIds.take key.len
    s.insertHelper c s.tree.root key value params.priority params.chunked now

/-! ### Locks -/

variable (sd : RadixCache × Int)

/-- One iteration of `inc_lock_ref`, at `node`. -/
def incLockStep (node : NodeId) : RadixCache × Int :=
  let (s, delta) := sd
  let len : Int := s.keyLen node
  let (s, delta) :=
    if s.lockRefOf node = 0 then
      ({ s with evictableSize := s.evictableSize - len, protectedSize := s.protectedSize + len },
        delta - len)
    else (s, delta)
  let s := { s with tree := s.tree.modifyData node fun a => { a with lockRef := a.lockRef + 1 } }
  (s.updateLeafStatus node, delta)

/-- `inc_lock_ref`, with the change of the evictable size it reports. -/
def incLockRef : RadixCache × Int :=
  if c.disable then (s, 0) else (s.tree.path node).foldl incLockStep (s, 0)

/-- One iteration of `dec_lock_ref`, at `node`. -/
def decLockStep (node : NodeId) : RadixCache × Int :=
  let (s, delta) := sd
  let len : Int := s.keyLen node
  let (s, delta) :=
    if s.lockRefOf node = 1 then
      ({ s with evictableSize := s.evictableSize + len, protectedSize := s.protectedSize - len },
        delta + len)
    else (s, delta)
  let s := { s with tree := s.tree.modifyData node fun a => { a with lockRef := a.lockRef - 1 } }
  (s.updateLeafStatus node, delta)

def decLockRef : RadixCache × Int :=
  if c.disable then (s, 0) else (s.tree.path node).foldl decLockStep (s, 0)

/-! ### Eviction -/

/-- `_delete_leaf`; `none` is the failed assertion that the parent holds the node. -/
def deleteLeaf : Option RadixCache := do
  let nodeKey ← s.tree.keyOf node
  let key ← nodeKey.childKey c.pageSize
  let parent ← s.tree.parentOf node
  if s.tree.child parent key = some node then
    let s := { s with
      tree := s.tree.removeLeaf node key
      evictableSize := s.evictableSize - nodeKey.len
      evictableLeaves := s.evictableLeaves.erase node }
    return s.updateLeafStatus parent
  else none

/-- The order of heap entries `(get_priority(node), node)`: by priority, then by
`TreeNode.__lt__`, then by the heap's own choice. -/
def heapLt (rank : NodeId → Nat) (i j : NodeId) : Bool :=
  let p := c.evictionPolicy.getPriority (s.nodeMeta i)
  let q := c.evictionPolicy.getPriority (s.nodeMeta j)
  let t := (s.nodeMeta i).lastAccessTime
  let u := (s.nodeMeta j).lastAccessTime
  decide (p.1 < q.1 ∨ p.1 = q.1 ∧ (p.2 < q.2 ∨ p.2 = q.2 ∧ (t < u ∨ t = u ∧ rank i < rank j)))

/-- The entry `heapq.heappop` takes. -/
def heapMin (s : RadixCache) (rank : NodeId → Nat) : List NodeId → Option NodeId
  | [] => none
  | x :: heap =>
    match heapMin s rank heap with
    | none => some x
    | some y => if s.heapLt c rank y x then some y else some x

/-- The `while` loop of `evict`: the number of slots evicted and the slots freed, in order. -/
def evictLoop (numTokens : Nat) (rank : NodeId → Nat) : Nat → RadixCache → List NodeId → Nat →
    List Slot → Option (RadixCache × Nat × List Slot)
  | 0, _, _, _, _ => none
  | fuel + 1, s, heap, numEvicted, freed =>
    if numEvicted < numTokens then
      match s.heapMin c rank heap with
      | none => some (s, numEvicted, freed)
      | some x => do
        let v ← s.valueOf x
        let parent ← s.tree.parentOf x
        let s ← s.deleteLeaf c x
        let heap := heap.erase x ++
          (if (s.tree.childIds parent).isEmpty && s.lockRefOf parent == 0 then [parent] else [])
        evictLoop numTokens rank fuel s heap (numEvicted + v.length) (freed ++ v)
    else some (s, numEvicted, freed)

def evict (numTokens : Nat) (rank : NodeId → Nat) : Option (RadixCache × Nat × List Slot) :=
  if c.disable then some (s, 0, [])
  else
    let leaves := (List.range s.tree.counter).filter (· ∈ s.evictableLeaves)
    evictLoop c numTokens rank (s.tree.counter + 1) s leaves 0 []

end RadixCache

end SglangRuntime
