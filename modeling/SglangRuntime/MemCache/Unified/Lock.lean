import SglangRuntime.MemCache.Unified.Core

/-!
# Memory cache — the locks of `UnifiedTreeCore`

`inc_lock_ref` and `dec_lock_ref`, with the component hooks they call.  Each hook walks the path
from a node to the root.  Sliding-window and Mamba locks work alike on the two tiers.

* Full: every node on the path that holds device data.
* Sliding window: the nodes that hold data, until a window is covered; the last one gets a uuid.
* Mamba: the node alone.
-/

namespace SglangRuntime

open Foundation

/-- The two memory tiers, each with its own values, lock counts and boundary uuids (`lock_host`). -/
inductive Tier where
  | device | host
deriving DecidableEq, Repr

namespace ComponentData

variable (cd : ComponentData)

def valueOn : Tier → Option (List Slot)
  | .device => cd.value
  | .host => cd.hostValue

def lock : Tier → Int
  | .device => cd.lockRef
  | .host => cd.hostLockRef

def uuidOn : Tier → Option Nat
  | .device => cd.uuid
  | .host => cd.hostUuid

def addLock (t : Tier) (n : Int) : ComponentData :=
  match t with
  | .device => { cd with lockRef := cd.lockRef + n }
  | .host => { cd with hostLockRef := cd.hostLockRef + n }

def setUuid (t : Tier) (u : Nat) : ComponentData :=
  match t with
  | .device => { cd with uuid := some u }
  | .host => { cd with hostUuid := some u }

end ComponentData

/-- The receipt of an acquire (`IncLockRefResult`, `DecLockRefParams`). -/
structure LockReceipt where
  swaUuidForLock : Option Nat := none
  swaUuidForHostLock : Option Nat := none
  fullUuidForHostLock : Option Nat := none
  skipLockNodeIds : ComponentType → Finset NodeId := fun _ => ∅

namespace LockReceipt

variable (r : LockReceipt)

/-- `skip_lock_node_ids.setdefault(ct, set()).add(node_id)`. -/
def skip (ct : ComponentType) (i : NodeId) : LockReceipt :=
  { r with skipLockNodeIds :=
      Function.update r.skipLockNodeIds ct (insert i (r.skipLockNodeIds ct)) }

def swaUuid : Tier → Option Nat
  | .device => r.swaUuidForLock
  | .host => r.swaUuidForHostLock

def setSwaUuid (t : Tier) (u : Nat) : LockReceipt :=
  match t with
  | .device => { r with swaUuidForLock := some u }
  | .host => { r with swaUuidForHostLock := some u }

end LockReceipt

namespace UnifiedTreeCore

variable (c : CoreConfig)

def addLock (s : UnifiedTreeCore) (t : Tier) (i : NodeId) (ct : ComponentType) (n : Int) :
    UnifiedTreeCore :=
  s.modifyComp i ct fun cd => cd.addLock t n

variable (s : UnifiedTreeCore)

variable (t : Tier)

variable (i : NodeId)

/-- The node's boundary uuid, a new one if it has none. -/
def ensureUuid (ct : ComponentType) : UnifiedTreeCore × Nat :=
  match (s.comp i ct).uuidOn t with
  | some u => (s, u)
  | none => (({ s with uuidCounter := s.uuidCounter + 1 }).modifyComp i ct fun cd =>
    cd.setUuid t (s.uuidCounter + 1), s.uuidCounter + 1)

/-! ### Full -/

/-- One node of the device-on segment. -/
def fullLockStep : UnifiedTreeCore :=
  { s.addLock .device i .full 1 with evictableDeviceLeaves := s.evictableDeviceLeaves.erase i }

variable (node : NodeId)

/-- `FullComponent.acquire_component_lock`: the evicted segment at the bottom is skipped, the rest of
the path is locked. -/
def fullAcquire (r : LockReceipt) : Option (UnifiedTreeCore × LockReceipt) :=
  let path := s.tree.path node
  let bottom := path.takeWhile fun i => (s.comp i .full).value.isNone
  let segment := path.dropWhile fun i => (s.comp i .full).value.isNone
  if ∀ i ∈ segment, (s.comp i .full).value.isSome then
    some (segment.foldl fullLockStep s, bottom.foldl (fun r i => r.skip .full i) r)
  else none

/-- The loop of `FullComponent.release_component_lock`. -/
def fullRelease (skip : Finset NodeId) : List NodeId → UnifiedTreeCore → Option UnifiedTreeCore
  | [], s => some s
  | i :: path, s =>
    if i ∈ skip then fullRelease skip path s
    else if (s.comp i .full).value.isSome ∧ 0 < (s.comp i .full).lockRef then
      let s := s.addLock .device i .full (-1)
      let s := if (s.comp i .full).lockRef = 0 then s.updateEvictableLeafSets i else s
      fullRelease skip path s
    else none

/-! ### Sliding window -/

/-- A host copy that gets its first lock leaves the host LRU. -/
def leaveHostLru (ct : ComponentType) (i : NodeId) : UnifiedTreeCore :=
  if t = .host ∧ (s.comp i ct).hostLockRef = 0 then s.detachHostLru ct i else s

/-- The loop of `SWAComponent.acquire_component_lock`. -/
def swaAcquire (t : Tier) : List NodeId → UnifiedTreeCore → Nat → LockReceipt →
    UnifiedTreeCore × LockReceipt
  | [], s, _, r => (s, r)
  | i :: path, s, size, r =>
    if size < c.slidingWindowSize then
      match (s.comp i .swa).valueOn t with
      | none => swaAcquire t path s size (r.skip .swa i)
      | some v =>
        let s := (s.leaveHostLru t .swa i).addLock t i .swa 1
        let size := size + v.length
        if size ≥ c.slidingWindowSize then
          let (s, u) := s.ensureUuid t i .swa
          swaAcquire t path s size (r.setSwaUuid t u)
        else swaAcquire t path s size r
    else (s, r)

/-- What the last release of a sliding-window lock does: a host copy that is the only one enters the
host LRU; on device a node without a value raises (`len(None)`). -/
def swaLastUnlock : Option UnifiedTreeCore :=
  let cd := s.comp i .swa
  if cd.lock t = 1 then
    match t with
    | .device => if cd.value = none then none else some s
    | .host => some (if cd.value = none ∧ cd.hostValue.isSome then s.attachHostLru .swa i else s)
  else some s

/-- The loop of `SWAComponent.release_component_lock`. -/
def swaRelease (t : Tier) (boundary : Option Nat) (skip : Finset NodeId) :
    List NodeId → UnifiedTreeCore → Option UnifiedTreeCore
  | [], s => some s
  | i :: path, s =>
    let cd := s.comp i .swa
    if i ∈ skip ∨ cd.lock t = 0 then swaRelease t boundary skip path s
    else do
      let s ← s.swaLastUnlock t i
      let s := s.addLock t i .swa (-1)
      if boundary.isSome ∧ cd.uuidOn t = boundary then some s
      else swaRelease t boundary skip path s

/-! ### Mamba -/

/-- `MambaComponent.acquire_component_lock`. -/
def mambaAcquire (r : LockReceipt) : UnifiedTreeCore × LockReceipt :=
  if node = s.tree.root then (s, r)
  else if (s.comp node .mamba).valueOn t = none then (s, r.skip .mamba node)
  else ((s.leaveHostLru t .mamba node).addLock t node .mamba 1, r)

/-- `MambaComponent.release_component_lock`; the last release on device raises without a value. -/
def mambaRelease (skip : Finset NodeId) : Option UnifiedTreeCore :=
  if node = s.tree.root ∨ node ∈ skip then some s
  else
    let cd := s.comp node .mamba
    match t with
    | .device =>
      if cd.lockRef > 0 then
        if cd.lockRef = 1 ∧ cd.value = none then none else some (s.addLock .device node .mamba (-1))
      else some s
    | .host =>
      let s := s.addLock .host node .mamba (-1)
      some (if cd.hostLockRef = 1 ∧ cd.value = none ∧ cd.hostValue.isSome then
        s.attachHostLru .mamba node else s)

/-! ### The operations -/

variable (skipLockComponents : List ComponentType)

/-- Acquire of one component in `inc_lock_ref`: a component the caller leaves out is recorded for
the release. -/
def acquireOrSkip (ct : ComponentType) (node : NodeId)
    (acquire : UnifiedTreeCore → LockReceipt → Option (UnifiedTreeCore × LockReceipt))
    (s : UnifiedTreeCore) (r : LockReceipt) : Option (UnifiedTreeCore × LockReceipt) :=
  if c.has ct then
    if ct ∈ skipLockComponents then
      some (s, if node = s.tree.root then r else r.skip ct node)
    else acquire s r
  else some (s, r)

def incLockRef : Option (UnifiedTreeCore × LockReceipt) :=
  if s.tree.Live node then do
    let (s, r) ← acquireOrSkip c skipLockComponents .full node
      (fun s r => s.fullAcquire node r) s {}
    let (s, r) ← acquireOrSkip c skipLockComponents .swa node
      (fun s r => some (swaAcquire c .device (s.tree.path node) s 0 r)) s r
    let (s, r) ← acquireOrSkip c skipLockComponents .mamba node
      (fun s r => some (s.mambaAcquire .device node r)) s r
    return (s.updateEvictableLeafSets node, r)
  else none

variable (params : LockReceipt)

variable (skipSwa : Bool)

def swaReleaseOf : Option UnifiedTreeCore :=
  if c.hasSwa && !skipSwa then
    swaRelease t (params.swaUuid t) (params.skipLockNodeIds .swa) (s.tree.path node) s
  else some s

def mambaReleaseOf : Option UnifiedTreeCore :=
  if c.hasMamba then s.mambaRelease t node (params.skipLockNodeIds .mamba) else some s

def decLockRef : Option UnifiedTreeCore :=
  if s.tree.Live node then do
    let s ← fullRelease (params.skipLockNodeIds .full) (s.tree.path node) s
    let s ← s.swaReleaseOf c .device node params skipSwa
    let s ← s.mambaReleaseOf c .device node params
    return s.updateEvictableLeafSets node
  else none

end UnifiedTreeCore

end SglangRuntime
