import SglangRuntime.Foundation.TrieSpan
import SglangRuntime.MemCache.Unified.Core

/-!
# Memory cache — session references of the unified tree

`UnifiedSessionRefTracker` and the session part of the Full and the sliding-window component
(`tree_component.py`, `full_component.py`, `swa_component.py`).  A session registers the deepest
nodes of its cached paths; each component counts, at every node, the registrations that cover it.

The counts and markers of the nodes' component data are kept beside the tree.  A dictionary of sets
whose empty entries are removed is the finite set of its pairs.  The order in which Python iterates a
set and the answers of a match validator are inputs.  The loops `while node is not root: …; node =
node.parent` run over the path of the node.  A result of `none` is a failed assertion.
-/

namespace SglangRuntime.Session

open Foundation Function

abbrev SessionId := String

abbrev Tree := Trie RadixKey ChildKey UnifiedTreeNode

/-- The components whose coverage is a part of a path. -/
inductive Component where
  | full | swa
deriving DecidableEq, Repr

/-- The session part of a component and of its data at the nodes. -/
structure Refs where
  /-- `cd.session_ref` -/
  sessionRef : NodeId → Int
  /-- `cd.session_ids` -/
  sessionIds : NodeId → Option (Finset SessionId)
  /-- `_session_leaves` -/
  leaves : Finset (SessionId × NodeId)
  /-- `_session_leaf_covered_len`, of the sliding-window component -/
  coveredLen : SessionId × NodeId → Option Nat

def Refs.init : Refs := ⟨fun _ => 0, fun _ => none, ∅, fun _ => none⟩

/-! ### Coverage -/

/-- `session_ref += delta` along a list of nodes; a count that goes down must be positive. -/
def addAlong (delta : Int) : List NodeId → (NodeId → Int) → Option (NodeId → Int)
  | [], ref => some ref
  | i :: l, ref =>
    if delta < 0 ∧ ¬ 0 < ref i then none
    else addAlong delta l (update ref i (ref i + delta))

/-- `_walk_session_coverage`. -/
def walkSessionCoverage (keyLen : NodeId → Nat) (span : Nat) (delta : Int) :
    List NodeId → Nat → (NodeId → Int) → Option ((NodeId → Int) × Nat)
  | [], covered, ref => some (ref, covered)
  | i :: l, covered, ref =>
    if covered < span then
      if delta < 0 ∧ ¬ 0 < ref i then none
      else walkSessionCoverage keyLen span delta l (covered + keyLen i)
        (update ref i (ref i + delta))
    else some (ref, covered)

section Operations

variable (c : CoreConfig) (T : Tree)

/-- `_inc_session_coverage` of the sliding-window component. -/
def incSessionCoverage (σ : SessionId) (leaf : NodeId) (s : Refs) : Option Refs :=
  if (s.coveredLen (σ, leaf)).isSome then none
  else do
    let targetSpan := c.slidingWindowSize + c.pageSize
    let (ref, covered) ← walkSessionCoverage (T.segLen c.ops) targetSpan 1 (T.path leaf) 0
      s.sessionRef
    if 0 < covered then
      some { s with
        sessionRef := ref
        coveredLen := update s.coveredLen (σ, leaf) (some covered) }
    else none

variable (ct : Component)

/-- `_dec_session_coverage`. -/
def decSessionCoverage (σ : SessionId) (leaf : NodeId) (s : Refs) : Option Refs :=
  match ct with
  | .full => (addAlong (-1) (T.path leaf) s.sessionRef).map fun ref => { s with sessionRef := ref }
  | .swa => do
    let coveredLen ← s.coveredLen (σ, leaf)
    let (ref, actual) ← walkSessionCoverage (T.segLen c.ops) coveredLen (-1) (T.path leaf) 0
      s.sessionRef
    if actual = coveredLen then
      some { s with
        sessionRef := ref
        coveredLen := update s.coveredLen (σ, leaf) none }
    else none

/-- The nodes from `leaf` up to `stop`, or to the root. -/
def pathTo (leaf : NodeId) (stop : Option NodeId) : List NodeId :=
  (T.path leaf).takeWhile fun i => some i ≠ stop

section

variable (σ : SessionId)

section

variable (leaf : NodeId)

/-- `_advance_session_coverage`. -/
def advanceSessionCoverage
    (oldAncestor : Option NodeId) (s : Refs) : Option Refs :=
  match ct with
  | .full =>
    (addAlong 1 (pathTo T leaf oldAncestor) s.sessionRef).map fun ref => { s with sessionRef := ref }
  | .swa => do
    let s ← incSessionCoverage c T σ leaf s
    match oldAncestor with
    | some a => decSessionCoverage c T .swa σ a s
    | none => some s

/-- `_recede_session_coverage`. -/
def recedeSessionCoverage
    (fallback : Option NodeId) (s : Refs) : Option Refs :=
  match ct with
  | .full =>
    (addAlong (-1) (pathTo T leaf fallback) s.sessionRef).map fun ref => { s with sessionRef := ref }
  | .swa => do
    let s ← decSessionCoverage c T .swa σ leaf s
    match fallback with
    | some a => incSessionCoverage c T σ a s
    | none => some s

/-! ### Markers -/

/-- `_mark_session_leaf`. -/
def markSessionLeaf (s : Refs) : Refs :=
  { s with
    leaves := insert (σ, leaf) s.leaves
    sessionIds := update s.sessionIds leaf
      (some (insert σ ((s.sessionIds leaf).getD ∅))) }

/-- `_unmark_session_leaf`. -/
def unmarkSessionLeaf (s : Refs) : Option Refs :=
  if (σ, leaf) ∈ s.leaves ∧ σ ∈ (s.sessionIds leaf).getD ∅ then
    let ids := ((s.sessionIds leaf).getD ∅).erase σ
    some { s with
      leaves := s.leaves.erase (σ, leaf)
      sessionIds := update s.sessionIds leaf (if ids = ∅ then none else some ids) }
  else none

end

end

/-- `_find_reusable_session_leaf`, for the answers of the validator. -/
def findReusableSessionLeaf (validator : NodeId → Bool) (node : NodeId) : Option NodeId :=
  (T.path node).find? validator

/-- `_nearest_session_ancestor`. -/
def nearestSessionAncestor (σ : SessionId) (newLeaf : NodeId) (s : Refs) : Option NodeId :=
  (T.parentOf newLeaf).bind fun p => (T.path p).find? fun i => (σ, i) ∈ s.leaves

/-- `register_session_leaf`. -/
def registerSessionLeaf (enable : Bool) (σ : SessionId) (leaf : Option NodeId)
    (s : Refs) : Option Refs :=
  match leaf with
  | none => some s
  | some leaf =>
    if !enable || leaf = T.root || (σ, leaf) ∈ s.leaves then some s
    else do
      let oldAncestor := nearestSessionAncestor T σ leaf s
      let s ← advanceSessionCoverage c T ct σ leaf oldAncestor s
      let s := markSessionLeaf σ leaf s
      match oldAncestor with
      | some a => unmarkSessionLeaf σ a s
      | none => some s

/-- `release_session`; `leaves` are the leaves of the session, in the order of the tuple. -/
def releaseSession (σ : SessionId) (leaves : List NodeId) (s : Refs) : Option Refs :=
  leaves.foldlM (fun s leaf => do
    let s ← decSessionCoverage c T ct σ leaf s
    unmarkSessionLeaf σ leaf s) s

variable (node : NodeId)

/-- The body of the loop in `discard_deleted_session_leaf`. -/
def discardSession (validator : NodeId → Bool) (s : Refs)
    (σ : SessionId) : Option Refs :=
  if (σ, node) ∈ s.leaves then do
    let fallback := (T.parentOf node).bind (findReusableSessionLeaf T validator)
    let fallback := fallback.filter fun i => (σ, i) ∉ s.leaves
    let s ← recedeSessionCoverage c T ct σ node fallback s
    let s ← unmarkSessionLeaf σ node s
    match fallback with
    | some i => some (markSessionLeaf σ i s)
    | none => some s
  else none

/-- `discard_deleted_session_leaf`; `ids` are the sessions of the node, in the order of the tuple. -/
def discardDeletedSessionLeaf (ids : List SessionId)
    (validator : SessionId → NodeId → Bool) (s : Refs) : Option Refs :=
  ids.foldlM (fun s σ => discardSession c T ct node (validator σ) s σ) s

end Operations

/-! ### The tracker -/

structure Config where
  core : CoreConfig
  enableSessionRadixCache : Bool

def Config.components (c : Config) : List Component :=
  if c.core.hasSwa then [.full, .swa] else [.full]

structure State where
  tree : Tree
  refs : Component → Refs
  /-- `_closed_session_ids`, the oldest first -/
  closedSessionIds : List SessionId
  sessionIncarnationCounter : Nat
  sessionGenerations : SessionId → Option Nat

/-- The session a request belongs to, with its `streaming` flag. -/
structure ReqSession where
  sessionId : SessionId
  streaming : Bool

structure Req where
  sessionId : Option SessionId
  session : Option ReqSession
  sessionGeneration : Option Nat
  lastNode : NodeId

def sessionIdForReq (req : Req) : Option SessionId :=
  match req.sessionId with
  | some σ => some σ
  | none => req.session.map ReqSession.sessionId

/-- A loop over the components. -/
def State.forComponents (f : Component → Refs → Option Refs) : List Component → State → Option State
  | [], st => some st
  | ct :: l, st => do
    let s ← f ct (st.refs ct)
    forComponents f l { st with refs := update st.refs ct s }

/-- `register_session_ref`; `validator` answers for each component. -/
def registerSessionRef (c : Config) (req : Req) (validator : Component → NodeId → Bool)
    (st : State) : Option State :=
  if !c.enableSessionRadixCache || req.session.any ReqSession.streaming then some st
  else match sessionIdForReq req with
    | none => some st
    | some σ =>
      if σ ∈ st.closedSessionIds then some st
      else match st.sessionGenerations σ with
        | none => some st
        | some generation =>
          if req.sessionGeneration ≠ some generation || req.lastNode = st.tree.root then some st
          else st.forComponents (fun ct => registerSessionLeaf c.core st.tree ct
            c.enableSessionRadixCache σ (findReusableSessionLeaf st.tree (validator ct) req.lastNode))
            c.components

def closedSessionTombstoneLimit : Nat := 8192

/-- `_remember_closed_session`. -/
def rememberClosedSession (σ : SessionId) (st : State) : State :=
  let closed := st.closedSessionIds.erase σ ++ [σ]
  { st with closedSessionIds := closed.drop (closed.length - closedSessionTombstoneLimit) }

def openRadixSession (σ : SessionId) (st : State) : State :=
  { st with
    closedSessionIds := st.closedSessionIds.erase σ
    sessionIncarnationCounter := st.sessionIncarnationCounter + 1
    sessionGenerations := update st.sessionGenerations σ
      (some (st.sessionIncarnationCounter + 1)) }

def ensureSessionGeneration (σ : SessionId) (st : State) : State :=
  match st.sessionGenerations σ with
  | some _ => st
  | none => openRadixSession σ st

/-- `release_radix_session`; `leaves` gives the order of each component's tuple. -/
def releaseRadixSession (c : Config) (σ : SessionId) (leaves : Component → List NodeId)
    (st : State) : Option State :=
  if !c.enableSessionRadixCache || σ ∈ st.closedSessionIds then some st
  else
    let st := rememberClosedSession σ st
    let st := { st with sessionGenerations := update st.sessionGenerations σ none }
    st.forComponents (fun ct => releaseSession c.core st.tree ct σ (leaves ct)) c.components

/-! ### Steps -/

inductive Event where
  /-- anything that leaves the shape of the tree alone -/
  | touch (tree : Tree)
  /-- `_split_node` -/
  | split (i : NodeId) (dTop dRest : ChildKey) (len : Nat)
  /-- `_add_new_node`, and the leaf that `insert_host` adds -/
  | addLeaf (p : NodeId) (d : ChildKey) (k : RadixKey) (a : UnifiedTreeNode)
  /-- `_remove_leaf_from_parent` -/
  | removeLeaf (i : NodeId) (d : ChildKey) (ids : Component → List SessionId)
      (validator : Component → SessionId → NodeId → Bool)
  | openSession (σ : SessionId)
  | ensureGeneration (σ : SessionId)
  | register (req : Req) (validator : Component → NodeId → Bool)
  | release (σ : SessionId) (leaves : Component → List NodeId)

/-- `session_ref` and the markers of a fresh node. -/
def Refs.newNode (s : Refs) (i : NodeId) (ref : Int) : Refs :=
  { s with
    sessionRef := update s.sessionRef i ref
    sessionIds := update s.sessionIds i none }

def exec (c : Config) (st : State) : Event → Option State
  | .touch tree => some { st with tree := tree }
  | .split i dTop dRest len => some { st with
      tree := st.tree.split c.core.ops i dTop dRest len (UnifiedTreeNode.prefixPart len)
        (UnifiedTreeNode.suffixPart len)
      -- `redistribute_on_node_split`
      refs := fun ct => (st.refs ct).newNode st.tree.counter ((st.refs ct).sessionRef i) }
  | .addLeaf p d k a => some { st with
      tree := st.tree.addLeaf p d k a
      refs := fun ct => (st.refs ct).newNode st.tree.counter 0 }
  | .removeLeaf i d ids validator => do
    let st ← st.forComponents (fun ct => discardDeletedSessionLeaf c.core st.tree ct i (ids ct)
      (validator ct)) c.components
    return { st with tree := st.tree.removeLeaf i d }
  | .openSession σ => some (openRadixSession σ st)
  | .ensureGeneration σ => some (ensureSessionGeneration σ st)
  | .register req validator => registerSessionRef c req validator st
  | .release σ leaves => releaseRadixSession c σ leaves st

/-- `l` enumerates the elements with `p`. -/
def Enumerates {α : Type} (l : List α) (p : α → Prop) : Prop := l.Nodup ∧ ∀ x, x ∈ l ↔ p x

/-- What the callers see to. -/
def Enabled (c : Config) (st : State) : Event → Prop
  | .touch tree => st.tree.SameShape tree
  | .split i dTop dRest len => ∃ k, Trie.SplitOk c.core.ops st.tree i dTop dRest len k
  | .addLeaf p d k _ => Trie.LeafOk c.core.ops st.tree p d k
  | .removeLeaf i d ids _ => Trie.RemoveOk c.core.ops st.tree i d ∧
      ∀ ct, Enumerates (ids ct) fun σ => σ ∈ ((st.refs ct).sessionIds i).getD ∅
  | .openSession _ => True
  | .ensureGeneration _ => True
  | .register req _ => st.tree.Live req.lastNode
  | .release σ leaves => ∀ ct, Enumerates (leaves ct) fun i => (σ, i) ∈ (st.refs ct).leaves

def State.init : State where
  tree := Trie.empty ⟨[], none, none, false, none⟩ UnifiedTreeNode.new
  refs := fun _ => .init
  closedSessionIds := []
  sessionIncarnationCounter := 0
  sessionGenerations := fun _ => none

inductive Run (c : Config) : State → Prop
  | init : Run c State.init
  | step {st st' : State} {e : Event} : Run c st → Enabled c st e → exec c st e = some st' →
      Run c st'

end SglangRuntime.Session
