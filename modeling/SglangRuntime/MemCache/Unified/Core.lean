import SglangRuntime.MemCache.KeyWalk

/-!
# Memory cache — the state of `UnifiedTreeCore`

The radix tree of `unified_cache/unified_tree_core.py`.  A node carries, for each component (Full,
sliding-window, Mamba), a device value, a host value and a lock count for each of the two; beside
the tree the core keeps the leaf sets and the LRU lists of the two auxiliary components.

An operation that can fail an assertion or raise returns an `Option`.  The slots that are handed
over to be freed (`device_frees`, `host_frees`) are kept in the state, as a log.  The
order inside the LRU lists, the hit times and the priorities only choose victims; the model keeps
the membership of the lists and leaves the choice open.  Session references are off.
-/

namespace SglangRuntime

open Foundation

inductive ComponentType where
  | full | swa | mamba
deriving DecidableEq, Repr

structure ComponentData where
  value : Option (List Slot) := none
  lockRef : Int := 0
  hostValue : Option (List Slot) := none
  hostLockRef : Int := 0
  /-- `metadata["uuid"]` -/
  uuid : Option Nat := none
  /-- `metadata["host_uuid"]` -/
  hostUuid : Option Nat := none
deriving DecidableEq, Repr

/-- What a `UnifiedTreeNode` carries besides its key, parent and children. -/
structure UnifiedTreeNode where
  component : ComponentType → ComponentData
  hitCount : Int
  writeThroughPendingId : Option NodeId
  loadBackPendingId : Option NodeId

namespace UnifiedTreeNode

def new : UnifiedTreeNode := ⟨fun _ => {}, 0, none, none⟩

def modify (a : UnifiedTreeNode) (ct : ComponentType) (f : ComponentData → ComponentData) :
    UnifiedTreeNode :=
  { a with component := Function.update a.component ct (f (a.component ct)) }

/-- What `redistribute_on_node_split` and `_split_node` give the new parent, the front part of a
node cut at `n`. -/
def prefixPart (n : Nat) (a : UnifiedTreeNode) : UnifiedTreeNode where
  component
    | .full =>
      { value := (a.component .full).value.map (·.take n)
        lockRef := (a.component .full).lockRef
        hostValue := (a.component .full).hostValue.map (·.take n)
        hostLockRef := (a.component .full).hostLockRef
        hostUuid := (a.component .full).hostUuid }
    | .swa =>
      { value := (a.component .swa).value.map (·.take n)
        lockRef := (a.component .swa).lockRef
        hostValue := (a.component .swa).hostValue.map (·.take n)
        uuid := (a.component .swa).uuid }
    | .mamba => {}
  hitCount := a.hitCount
  writeThroughPendingId := a.writeThroughPendingId
  loadBackPendingId := a.loadBackPendingId

/-- What a node cut at `n` keeps. -/
def suffixPart (n : Nat) (a : UnifiedTreeNode) : UnifiedTreeNode :=
  { a with
    component := fun
      | .full => { a.component .full with
          value := (a.component .full).value.map (·.drop n)
          hostValue := (a.component .full).hostValue.map (·.drop n)
          hostUuid := none }
      | .swa => { a.component .swa with
          value := (a.component .swa).value.map (·.drop n)
          hostValue := (a.component .swa).hostValue.map (·.drop n)
          uuid := none }
      | .mamba => a.component .mamba }

end UnifiedTreeNode

structure CoreConfig where
  pageSize : Nat
  pageSize_pos : 0 < pageSize
  hasSwa : Bool
  hasMamba : Bool
  slidingWindowSize : Nat
  window_pos : 0 < slidingWindowSize

namespace CoreConfig

abbrev ops (c : CoreConfig) : KeyOps RadixKey (Namespace × LogicalUnit) ChildKey :=
  RadixKey.ops c.pageSize c.pageSize_pos

/-- Whether the tree has the component. -/
def has (c : CoreConfig) : ComponentType → Bool
  | .full => true
  | .swa => c.hasSwa
  | .mamba => c.hasMamba

end CoreConfig

structure UnifiedTreeCore where
  tree : Trie RadixKey ChildKey UnifiedTreeNode
  lruLists : ComponentType → Finset NodeId
  hostLruLists : ComponentType → Finset NodeId
  evictableDeviceLeaves : Finset NodeId
  evictableHostLeaves : Finset NodeId
  /-- `_COMPONENT_UUID_COUNTER` -/
  uuidCounter : Nat
  /-- all device slots freed so far, in order -/
  deviceFrees : ComponentType → List Slot
  /-- all host slots freed so far, in order -/
  hostFrees : ComponentType → List Slot

namespace UnifiedTreeCore

variable (c : CoreConfig)

/-- The root's data: an empty Full value, and a lock of each component the tree has. -/
def rootData : UnifiedTreeNode where
  component
    | .full => { value := some [], lockRef := 1 }
    | .swa => { lockRef := if c.hasSwa then 1 else 0 }
    | .mamba => { lockRef := if c.hasMamba then 1 else 0 }
  hitCount := 0
  writeThroughPendingId := none
  loadBackPendingId := none

def reset : UnifiedTreeCore where
  tree := Trie.empty ⟨[], none, none, false, none⟩ (rootData c)
  lruLists := fun _ => ∅
  hostLruLists := fun _ => ∅
  evictableDeviceLeaves := ∅
  evictableHostLeaves := ∅
  uuidCounter := 1
  deviceFrees := fun _ => []
  hostFrees := fun _ => []

variable (s : UnifiedTreeCore)

variable (i : NodeId)

variable (ct : ComponentType)

/-- `node.component_data[ct]`. -/
def comp : ComponentData :=
  ((s.tree.dataOf i).map fun a => a.component ct).getD {}

def modifyNode (f : UnifiedTreeNode → UnifiedTreeNode) : UnifiedTreeCore :=
  { s with tree := s.tree.modifyData i f }

def modifyComp (f : ComponentData → ComponentData) : UnifiedTreeCore :=
  s.modifyNode i fun a => a.modify ct f

/-! ### The leaf sets -/

/-- No component of the node is locked on device. -/
def Unlocked : Prop :=
  (s.comp i .full).lockRef ≤ 0 ∧ (s.comp i .swa).lockRef ≤ 0 ∧ (s.comp i .mamba).lockRef ≤ 0

/-- No component of the node is locked on host. -/
def HostUnlocked (s : UnifiedTreeCore) (i : NodeId) : Prop :=
  (s.comp i .full).hostLockRef ≤ 0 ∧ (s.comp i .swa).hostLockRef ≤ 0 ∧
    (s.comp i .mamba).hostLockRef ≤ 0

instance (s : UnifiedTreeCore) (i : NodeId) : Decidable (s.Unlocked i) :=
  inferInstanceAs (Decidable (_ ∧ _))

instance (s : UnifiedTreeCore) (i : NodeId) : Decidable (s.HostUnlocked i) :=
  inferInstanceAs (Decidable (_ ∧ _))

/-- `_is_device_leaf`: Full KV on device, no child with Full KV on device, unlocked, not root. -/
def IsDeviceLeaf : Prop :=
  i ≠ s.tree.root ∧ (s.comp i .full).value.isSome ∧ s.Unlocked i ∧
    ∀ j ∈ s.tree.childIds i, (s.comp j .full).value = none

/-- `_is_host_leaf`: Full KV on host only, no children, unlocked, not root. -/
def IsHostLeaf (s : UnifiedTreeCore) (i : NodeId) : Prop :=
  i ≠ s.tree.root ∧ (s.comp i .full).value = none ∧ (s.comp i .full).hostValue.isSome ∧
    s.HostUnlocked i ∧ s.tree.childIds i = []

instance (s : UnifiedTreeCore) (i : NodeId) : Decidable (s.IsDeviceLeaf i) :=
  inferInstanceAs (Decidable (_ ∧ _))

instance (s : UnifiedTreeCore) (i : NodeId) : Decidable (s.IsHostLeaf i) :=
  inferInstanceAs (Decidable (_ ∧ _))

def updateEvictableLeafSets : UnifiedTreeCore :=
  { s with
    evictableDeviceLeaves := if s.IsDeviceLeaf i then insert i s.evictableDeviceLeaves
      else s.evictableDeviceLeaves.erase i
    evictableHostLeaves := if s.IsHostLeaf i then insert i s.evictableHostLeaves
      else s.evictableHostLeaves.erase i }

/-! ### LRU lists -/

/-- `lru_lists[ct].insert_mru(node)`. -/
def insertMru (i : NodeId) : Option UnifiedTreeCore :=
  if i ∈ s.lruLists ct then none
  else some { s with lruLists := Function.update s.lruLists ct (insert i (s.lruLists ct)) }

/-- Puts the node on `host_lru_lists[ct]` if it is not there. -/
def attachHostLru (i : NodeId) : UnifiedTreeCore :=
  { s with hostLruLists := Function.update s.hostLruLists ct (insert i (s.hostLruLists ct)) }

/-- Takes the node off `host_lru_lists[ct]` if it is there. -/
def detachHostLru (i : NodeId) : UnifiedTreeCore :=
  { s with hostLruLists := Function.update s.hostLruLists ct ((s.hostLruLists ct).erase i) }

/-! ### A new node -/

def addNewNode (parent : NodeId) (key : RadixKey) (value : List Slot) :
    Option (UnifiedTreeCore × NodeId) := do
  let childKey ← key.childKey c.pageSize
  let newNode := s.tree.counter
  let a := UnifiedTreeNode.new.modify .full fun cd => { cd with value := some value }
  let s := { s with tree := s.tree.addLeaf parent childKey key a }
  return ((s.updateEvictableLeafSets newNode).updateEvictableLeafSets parent, newNode)

def setComponentDeviceValue (node : NodeId) (ct : ComponentType)
    (value : List Slot) : Option UnifiedTreeCore :=
  if ct ≠ .full ∧ s.tree.Live node then
    let s := s.modifyComp node ct fun cd => { cd with value := some value }
    (s.detachHostLru ct node).insertMru ct node
  else none

end UnifiedTreeCore

end SglangRuntime
