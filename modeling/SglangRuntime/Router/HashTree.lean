import SglangRuntime.Foundation.TriePath

/-!
# Router — the hash tree of KV-cache events

`TreeState` of `policies/kv_events/tree.rs`: a forest of block hashes below one root, each node with
the workers that hold the chain ending there, and a reverse index from a block hash to the nodes
that carry it.  Stores attach by parent hash through the index, removals take a worker off every
node of a hash, and a node that is left without workers and children is pruned, with every ancestor
this empties.

The tree is a trie (`Foundation.Trie`) whose segments are single hashes.  A hash set is iterated in
no particular order, so every operation that iterates one takes the order as an argument.  The time
of last use and LRU eviction are left out, and so is a node's own copy of its parent hash, which
nothing reads.
-/

namespace SglangRuntime.KvEvents

open Foundation List

abbrev BlockHash := Int

structure KvWorkerId where
  url : String
  dpRank : Nat
deriving DecidableEq, Repr

/-- An order in which hash sets of node ids are iterated. -/
structure SetOrder where
  toList : Finset NodeId → List NodeId
  mem_toList : ∀ {s i}, i ∈ toList s ↔ i ∈ s
  nodup_toList : ∀ s, (toList s).Nodup

/-- From the oldest node to the newest. -/
def SetOrder.ascending : SetOrder where
  toList s := (range (s.sup id + 1)).filter (· ∈ s)
  mem_toList {s i} := by
    rw [mem_filter, mem_range, decide_eq_true_eq]
    exact ⟨And.right, fun h => ⟨Nat.lt_succ_of_le (Finset.le_sup h (f := id)), h⟩⟩
  nodup_toList s := nodup_range.filter _

/-- A node's segment is its block hash. -/
def hashOps : KeyOps (List BlockHash) BlockHash BlockHash where
  page := 1
  units := id
  label := head?
  take := take
  drop := drop
  page_pos := Nat.one_pos
  units_take _ _ := rfl
  units_drop _ _ := rfl
  label_isSome k h := by
    cases k with
    | nil => cases h
    | cons => rfl
  label_eq_iff k k' h h' := by
    cases k with
    | nil => cases h
    | cons =>
      cases k' with
      | nil => cases h'
      | cons => simp

structure TreeState where
  nodes : Trie (List BlockHash) BlockHash (Finset KvWorkerId)
  byHash : BlockHash → Finset NodeId

structure MatchResult where
  matchedBlocks : Nat
  workers : Finset KvWorkerId
deriving DecidableEq

/-- `ROOT_ID`. -/
def rootId : NodeId := 0

namespace TreeState

def new : TreeState := ⟨.empty [] ∅, fun _ => ∅⟩

variable (s : TreeState)

def workersOf (i : NodeId) : Finset KvWorkerId := (s.nodes.dataOf i).getD ∅

def blockHashOf (i : NodeId) : Option BlockHash := (s.nodes.keyOf i).bind head?

/-- A node without workers and children. -/
def Prunable (s : TreeState) (i : NodeId) : Prop := s.workersOf i = ∅ ∧ s.nodes.childIds i = []

instance (s : TreeState) (i : NodeId) : Decidable (s.Prunable i) := inferInstanceAs (Decidable (_ ∧ _))

/-! ### Stores -/

/-- `create_child`; without the parent the new id is spent and nothing is added. -/
def createChild (parent : NodeId) (blockHash : BlockHash) : TreeState × Option NodeId :=
  let id := s.nodes.counter
  if s.nodes.Live parent then
    ({ nodes := s.nodes.addLeaf parent blockHash [blockHash] ∅
       byHash := Function.update s.byHash blockHash (insert id (s.byHash blockHash)) }, some id)
  else ({ s with nodes := { s.nodes with counter := id + 1 } }, none)

variable (ord : SetOrder)

def resolveParent (s : TreeState) (worker : KvWorkerId) : Option BlockHash → NodeId
  | none => rootId
  | some parentHash =>
    let candidates := s.byHash parentHash
    if candidates = ∅ then rootId
    else if candidates.card = 1 then (ord.toList candidates).headD rootId
    else ((ord.toList candidates).find? fun cand => decide (worker ∈ s.workersOf cand)).getD rootId

def childOrCreate (current : NodeId) (h : BlockHash) : TreeState × Option NodeId :=
  match s.nodes.child current h with
  | some id => (s, some id)
  | none => s.createChild current h

variable (worker : KvWorkerId)

def addWorker (i : NodeId) : TreeState :=
  { s with nodes := s.nodes.modifyData i fun ws => Insert.insert worker ws }

/-- The loop of `insert`. -/
def insertLoop (worker : KvWorkerId) : List BlockHash → NodeId → TreeState → TreeState
  | [], _, s => s
  | h :: hs, current, s =>
    match s.childOrCreate current h with
    | (s, none) => s
    | (s, some child) =>
      if s.nodes.Live child then
        insertLoop worker hs child (s.addWorker worker child)
      else s

def insert (s : TreeState) (worker : KvWorkerId) (parentHash : Option BlockHash)
    (blockHashes : List BlockHash) : TreeState :=
  if blockHashes = [] then s
  else insertLoop worker blockHashes (s.resolveParent ord worker parentHash) s

/-! ### Removals -/

/-- Takes a leaf out of the tree and of the reverse index. -/
def dropNode (i : NodeId) (h : BlockHash) : TreeState where
  nodes := s.nodes.removeLeaf i h
  byHash := Function.update s.byHash h ((s.byHash h).erase i)

/-- The loop of `prune_cascade`. -/
def pruneLoop : Nat → TreeState → NodeId → TreeState
  | 0, s, _ => s
  | fuel + 1, s, cursor =>
    if cursor = rootId then s
    else
      match s.nodes.parentOf cursor, s.blockHashOf cursor with
      | some parent, some h =>
        if s.Prunable cursor then
          let s := s.dropNode cursor h
          if parent ≠ rootId ∧ s.nodes.Live parent ∧ s.Prunable parent then pruneLoop fuel s parent
          else s
        else s
      | _, _ => s

/-- No walk to the root is longer than the number of ids handed out. -/
def pruneCascade (start : NodeId) : TreeState := pruneLoop s.nodes.counter s start

def eraseWorker (i : NodeId) : TreeState :=
  { s with nodes := s.nodes.modifyData i fun ws => ws.erase worker }

/-- One target of `remove`; it may be gone since a cascade passed through it. -/
def removeTarget (s : TreeState) (id : NodeId) : TreeState :=
  if s.nodes.Live id then
    let s := s.eraseWorker worker id
    if s.Prunable id then s.pruneCascade id else s
  else s

def remove (s : TreeState) (worker : KvWorkerId) (blockHashes : List BlockHash) : TreeState :=
  let targets := blockHashes.flatMap fun h => ord.toList (s.byHash h)
  targets.foldl (removeTarget worker) s

/-- The nodes but the root. -/
def ids : Finset NodeId :=
  (Finset.range s.nodes.counter).filter fun i => s.nodes.Live i ∧ i ≠ rootId

/-- The first loop of `clear_worker`, which collects the nodes to prune. -/
def clearLoop (worker : KvWorkerId) : List NodeId → TreeState → TreeState × List NodeId
  | [], s => (s, [])
  | id :: ids, s =>
    if worker ∈ s.workersOf id then
      let s := s.eraseWorker worker id
      let (s', candidates) := clearLoop worker ids s
      (s', if s.Prunable id then id :: candidates else candidates)
    else clearLoop worker ids s

def clearWorker (s : TreeState) (worker : KvWorkerId) : TreeState :=
  let (s, candidates) := clearLoop worker (ord.toList s.ids) s
  candidates.foldl (fun s id => if s.nodes.Live id then s.pruneCascade id else s) s

/-! ### Lookup -/

/-- The loop of `match_prefix`: the blocks matched and the last node. -/
def matchLoop (s : TreeState) : List BlockHash → NodeId → Nat × Option NodeId
  | [], _ => (0, none)
  | h :: hs, current =>
    match s.nodes.child current h with
    | none => (0, none)
    | some child =>
      let (matched, last) := s.matchLoop hs child
      (matched + 1, some (last.getD child))

def matchStart (s : TreeState) : Option BlockHash → NodeId
  | none => rootId
  | some p =>
    if (s.byHash p).card = 1 then (ord.toList (s.byHash p)).headD rootId else rootId

def matchPrefix (s : TreeState) (parentHash : Option BlockHash)
    (blockHashes : List BlockHash) : MatchResult :=
  let (matched, last) := s.matchLoop blockHashes (s.matchStart ord parentHash)
  ⟨matched, (last.map s.workersOf).getD ∅⟩

end TreeState

/-! ### Events -/

/-- `KvCacheEvent`, with what the pump reads of it and the medium it is tagged with. -/
inductive KvCacheEvent where
  | blockStored (parentBlockHash : Option BlockHash) (blockHashes : List BlockHash)
      (medium : Option String)
  | blockRemoved (blockHashes : List BlockHash) (medium : Option String)
  | allBlocksCleared
deriving DecidableEq, Repr

/-- What the pump does with an event of a batch. -/
def TreeState.apply (ord : SetOrder) (s : TreeState) (worker : KvWorkerId) :
    KvCacheEvent → TreeState
  | .blockStored parentBlockHash blockHashes _ => s.insert ord worker parentBlockHash blockHashes
  | .blockRemoved blockHashes _ => s.remove ord worker blockHashes
  | .allBlocksCleared => s.clearWorker ord worker

end SglangRuntime.KvEvents
