import SglangRuntime.Foundation.EvenChunks
import Mathlib.Data.List.Basic
import Mathlib.Logic.Function.Basic

/-!
# Expert parallelism — moving the weights of a layer

`update_expert_weights_single_layer` of `eplb/expert_location_updater.py`.  Each rank computes from
the two maps what it copies, sends and receives (`rankPlan`), without a word with the others, and
posts its operations in batches by ranges of expert ids.

The weights of all ranks are one table by tensor and global slot, of which each rank reads and
writes its own slots; so are the temporary buffers.  Where the source would raise there is `none`.
Without elastic expert parallelism every rank is active.

The run of the ranks is in the second part: a rank goes on to its next batch when every operation of
the present one is done, operations of one batch between two ranks are matched in the order in which
they were posted, and data moves when both have posted.  An operation that the other rank has nothing
for is never done.
-/

namespace SglangRuntime.Eplb

open Foundation Function List

/-! ### Dividing the receivers among the senders -/

structure ChunkUtils where
  chunkValues : List Nat
  elementValues : List Nat

namespace ChunkUtils

def chunkIndexFromElementIndex (numElements numChunks elementIndex : Nat) : Nat :=
  chunkIndex numElements numChunks elementIndex

/-- The start and the end of the slice. -/
def elementSliceFromChunkIndex (numElements numChunks index : Nat) : Nat × Nat :=
  let start := chunkStart numElements numChunks index
  (start, start + chunkSize numElements numChunks index)

variable (u : ChunkUtils)

def chunkValueFromElementValue (elementValue : Nat) : Option Nat :=
  (u.elementValues.idxOf? elementValue).bind fun elementIndex =>
    u.chunkValues[chunkIndexFromElementIndex u.elementValues.length u.chunkValues.length
      elementIndex]?

def elementValuesFromChunkValue (chunkValue : Nat) : Option (List Nat) :=
  if u.elementValues = [] then some []
  else
    (u.chunkValues.idxOf? chunkValue).map fun index =>
      let (start, stop) :=
        elementSliceFromChunkIndex u.elementValues.length u.chunkValues.length index
      (u.elementValues.drop start).take (stop - start)

end ChunkUtils

/-- `_deduplicate_ordered`. -/
def deduplicateOrdered (arr : List Nat) : List Nat :=
  arr.foldl (fun output item => if output.getLast? = some item then output else output ++ [item]) []

/-! ### What a rank does -/

structure Layer where
  oldPhysicalToLogicalMap : List Nat
  newPhysicalToLogicalMap : List Nat
  numLocalPhysicalExperts : Nat
  numGpuPerNode : Nat
  numTensors : Nat

structure CommInfo where
  sameNodeMapping : ChunkUtils
  crossNodeMapping : ChunkUtils
  needCommSelfNodeDstRanks : List Nat

structure P2POp where
  isend : Bool
  /-- the tensor and the slot that is sent, or the buffer that is received into -/
  tensor : Nat
  location : Nat
  peer : Nat
deriving DecidableEq

/-- The five cases of a slot. -/
inductive RecvCase where
  | unchanged
  | sameGpu (srcExpertLocation : Nat)
  | freeRider (srcExpertLocation : Nat)
  | recv (srcRank : Nat)
deriving DecidableEq

namespace Layer

variable (layer : Layer)

def numPhysicalExperts : Nat := layer.oldPhysicalToLogicalMap.length

variable (rank : Nat)

/-- The slots of a rank. -/
def localExpertLocations : List Nat :=
  range' (rank * layer.numLocalPhysicalExperts) layer.numLocalPhysicalExperts

variable (logicalExpertId : Nat)

def allSrcRanks : List Nat :=
  deduplicateOrdered (((range layer.numPhysicalExperts).filter fun x =>
    layer.oldPhysicalToLogicalMap[x]? = some logicalExpertId).map
      (· / layer.numLocalPhysicalExperts))

def needCommDstRanks : List Nat :=
  deduplicateOrdered (((range layer.numPhysicalExperts).filter fun x =>
    layer.newPhysicalToLogicalMap[x]? = some logicalExpertId ∧
      x / layer.numLocalPhysicalExperts ∉ layer.allSrcRanks logicalExpertId).map
        (· / layer.numLocalPhysicalExperts))

def computeCommInfo : CommInfo :=
  let selfNodeId := rank / layer.numGpuPerNode
  let allSrcRanks := layer.allSrcRanks logicalExpertId
  let allSrcNodes := allSrcRanks.map (· / layer.numGpuPerNode)
  let selfNodeSrcRanks := allSrcRanks.filter fun x => x / layer.numGpuPerNode = selfNodeId
  let needCommDstRanks := layer.needCommDstRanks logicalExpertId
  let needCommSelfNodeDstRanks :=
    if selfNodeSrcRanks ≠ [] then
      needCommDstRanks.filter fun x => x / layer.numGpuPerNode = selfNodeId
    else []
  let needCommCrossNodeDstRanks :=
    needCommDstRanks.filter fun x => x / layer.numGpuPerNode ∉ allSrcNodes
  { sameNodeMapping := ⟨selfNodeSrcRanks, needCommSelfNodeDstRanks⟩
    crossNodeMapping := ⟨allSrcRanks, needCommCrossNodeDstRanks⟩
    needCommSelfNodeDstRanks }

/-- The rank that an expert is received from. -/
def chosenSrcRank : Option Nat :=
  let info := layer.computeCommInfo rank logicalExpertId
  if rank ∈ info.needCommSelfNodeDstRanks then
    info.sameNodeMapping.chunkValueFromElementValue rank
  else info.crossNodeMapping.chunkValueFromElementValue rank

def handleRecvOfDstExpertLocation (dstExpertLocation : Nat) : Option RecvCase :=
  match layer.newPhysicalToLogicalMap[dstExpertLocation]? with
  | none => none
  | some logicalExpertId =>
    if layer.oldPhysicalToLogicalMap[dstExpertLocation]? = some logicalExpertId then some .unchanged
    else
      match (layer.localExpertLocations rank).find? fun x =>
        layer.oldPhysicalToLogicalMap[x]? = some logicalExpertId with
      | some x => some (.sameGpu x)
      | none =>
        let first := rank * layer.numLocalPhysicalExperts
        match (range' first (dstExpertLocation - first)).find? fun x =>
          layer.newPhysicalToLogicalMap[x]? = some logicalExpertId with
        | some x => some (.freeRider x)
        | none => (layer.chosenSrcRank rank logicalExpertId).map .recv

/-- The case of each slot of a rank. -/
def handleRecv : Option (List (Nat × RecvCase)) :=
  (layer.localExpertLocations rank).mapM fun dst =>
    (layer.handleRecvOfDstExpertLocation rank dst).map (dst, ·)

def irecvOps (dst srcRank : Nat) : List P2POp :=
  (range layer.numTensors).map fun i => ⟨false, i, dst, srcRank⟩

def isendOps (src : Nat) (dstRanks : List Nat) : List P2POp :=
  dstRanks.flatMap fun dstRank => (range layer.numTensors).map fun i => ⟨true, i, src, dstRank⟩

def createIsendOpsOfLogicalExpertId (src : Nat) : Option (List P2POp) :=
  let info := layer.computeCommInfo rank logicalExpertId
  (info.sameNodeMapping.elementValuesFromChunkValue rank).bind fun sameNodeDstRanks =>
    (info.crossNodeMapping.elementValuesFromChunkValue rank).map fun crossNodeDstRanks =>
      layer.isendOps src (sameNodeDstRanks ++ crossNodeDstRanks)

/-- The loop of `_create_isend_ops`, with the experts that are handled. -/
def createIsendOpsFrom (rank : Nat) : List Nat → List Nat → Option (List (Nat × List P2POp))
  | [], _ => some []
  | src :: srcs, handled =>
    match layer.oldPhysicalToLogicalMap[src]? with
    | none => none
    | some logicalExpertId =>
      if logicalExpertId ∈ handled then createIsendOpsFrom rank srcs handled
      else
        (layer.createIsendOpsOfLogicalExpertId rank logicalExpertId src).bind fun ops =>
          (createIsendOpsFrom rank srcs (logicalExpertId :: handled)).map ((logicalExpertId, ops) :: ·)

def createIsendOps : Option (List (Nat × List P2POp)) :=
  layer.createIsendOpsFrom rank (layer.localExpertLocations rank) []

end Layer

variable (isActive : Nat → Bool)

/-- The operations with ranks that are not active are taken out, and what is then missing. -/
def filterInfo (info : Nat × List P2POp) :
    Option ((Nat × List P2POp) × List Nat) :=
  let hasIsend := info.2.any fun op => op.isend
  let hasIrecv := info.2.any fun op => !op.isend
  if hasIsend && hasIrecv then none
  else if hasIsend then some ((info.1, info.2.filter fun op => isActive op.peer), [])
  else if hasIrecv && info.2.any (fun op => !isActive op.peer) then some ((info.1, []), [info.1])
  else some (info, [])

/-- `_filter_p2p_ops`. -/
def filterP2pOps (infos : List (Nat × List P2POp)) :
    Option (List (Nat × List P2POp) × List Nat) :=
  (infos.mapM (filterInfo isActive)).map fun filtered =>
    (filtered.map Prod.fst, filtered.flatMap Prod.snd)

/-- All that a rank does for a layer. -/
structure RankPlan where
  /-- slots copied into buffers of the rank itself -/
  sameGpuCopies : List (Nat × Nat)
  p2pOpInfos : List (Nat × List P2POp)
  buffer2weightCopyInfos : List (Nat × Nat)
  missingLogicalExpertsInfo : List Nat

def RecvCase.sameGpuCopy (dst : Nat) : RecvCase → Option (Nat × Nat)
  | .sameGpu src => some (src, dst)
  | _ => none

def RecvCase.buffer2weightCopy (dst : Nat) : RecvCase → Option (Nat × Nat)
  | .unchanged => none
  | .sameGpu _ | .recv _ => some (dst, dst)
  | .freeRider src => some (src, dst)

def Layer.recvInfo (layer : Layer) (dst : Nat) : RecvCase → Option (Nat × List P2POp)
  | .recv srcRank =>
    layer.newPhysicalToLogicalMap[dst]?.map fun logicalExpertId =>
      (logicalExpertId, layer.irecvOps dst srcRank)
  | _ => none

def Layer.rankPlan (layer : Layer) (isActive : Nat → Bool) (rank : Nat) : Option RankPlan :=
  (layer.handleRecv rank).bind fun cases =>
    (layer.createIsendOps rank).bind fun sendInfos =>
      let recvInfos := cases.filterMap fun case => layer.recvInfo case.1 case.2
      (filterP2pOps isActive (recvInfos ++ sendInfos)).map fun (infos, missing) =>
        { sameGpuCopies := cases.filterMap fun case => case.2.sameGpuCopy case.1
          p2pOpInfos := infos
          buffer2weightCopyInfos := cases.filterMap fun case => case.2.buffer2weightCopy case.1
          missingLogicalExpertsInfo := missing }

/-- The entry of an expert in the dictionary, which keeps the last of several. -/
def RankPlan.opsByExpert (plan : RankPlan) (eid : Nat) : List P2POp :=
  (((plan.p2pOpInfos.filter fun info => info.1 = eid).getLast?).map Prod.snd).getD []

/-- The expert ids of a batch. -/
def Layer.batchEids (layer : Layer) (batchChunkSize batch : Nat) : List Nat :=
  let start := batch * batchChunkSize
  range' start (min (start + batchChunkSize) layer.numPhysicalExperts - start)

def Layer.numBatches (layer : Layer) (batchChunkSize : Nat) : Nat :=
  (layer.numPhysicalExperts + batchChunkSize - 1) / batchChunkSize

def Layer.batchOps (layer : Layer) (plan : RankPlan) (batchChunkSize batch : Nat) : List P2POp :=
  (layer.batchEids batchChunkSize batch).flatMap plan.opsByExpert

/-- The sends to, or the receives from, a rank. -/
def opsWith (isend : Bool) (peer : Nat) (ops : List P2POp) : List P2POp :=
  ops.filter fun op => op.isend = isend ∧ op.peer = peer

/-! ### The run of the ranks -/

/-- Where a rank stands. -/
inductive Stage where
  | fresh
  /-- before it posts the batch -/
  | ready (batch : Nat)
  | posted (batch : Nat)
  | finished
deriving DecidableEq

/-- Values by tensor and slot. -/
abbrev Table (W : Type*) := Nat × Nat → W

structure System (W : Type*) where
  weights : Table W
  tempBuffers : Table W
  stage : Nat → Stage
  /-- how many operations of a batch have moved their data from a rank to another -/
  moved : Nat → Nat → Nat → Nat

/-- The arguments of the call that all ranks make. -/
structure Redistribution where
  layer : Layer
  worldSize : Nat
  /-- constantly true without elastic expert parallelism -/
  isActive : Nat → Bool
  batchChunkSize : Nat
  old_length :
    layer.oldPhysicalToLogicalMap.length = worldSize * layer.numLocalPhysicalExperts
  new_length :
    layer.newPhysicalToLogicalMap.length = worldSize * layer.numLocalPhysicalExperts
  old_lt : ∀ e ∈ layer.oldPhysicalToLogicalMap, e < layer.numPhysicalExperts
  new_mem_old : ∀ e ∈ layer.newPhysicalToLogicalMap, e ∈ layer.oldPhysicalToLogicalMap
  numGpuPerNode_pos : 0 < layer.numGpuPerNode
  batchChunkSize_pos : 0 < batchChunkSize

inductive Step where
  /-- the plan is made, and copies within the rank -/
  | start (rank : Nat)
  | post (rank : Nat)
  /-- the next operation that a rank sends to another moves its data -/
  | move (src dst : Nat)
  /-- every operation of the batch is done -/
  | wait (rank : Nat)
  /-- buffers are copied to weights -/
  | finish (rank : Nat)

/-- Slots of one table are copied to slots of another, one after the other. -/
def copyAll {W : Type*} (numTensors : Nat) (src : Table W) (copies : List (Nat × Nat))
    (dst : Table W) : Table W :=
  copies.foldl (fun dst copy p =>
    if p.1 < numTensors ∧ p.2 = copy.2 then src (p.1, copy.1) else dst p) dst

namespace Redistribution

variable {W : Type*} (R : Redistribution)

/-- What the rank computes; nothing where it raises. -/
def plan (rank : Nat) : Option RankPlan := R.layer.rankPlan R.isActive rank

def numBatches : Nat := R.layer.numBatches R.batchChunkSize

/-- What the rank posts in a batch. -/
def ops (rank batch : Nat) : List P2POp :=
  match R.plan rank with
  | none => []
  | some plan => R.layer.batchOps plan R.batchChunkSize batch

def sends (rank peer batch : Nat) : List P2POp := opsWith true peer (R.ops rank batch)

def recvs (rank peer batch : Nat) : List P2POp := opsWith false peer (R.ops rank batch)

/-- The rank exists and is active. -/
def Participates (rank : Nat) : Prop := rank < R.worldSize ∧ R.isActive rank

instance (rank : Nat) : Decidable (R.Participates rank) := inferInstanceAs (Decidable (_ ∧ _))

/-- All that the rank exchanges with the peer of the operation has moved. -/
def opDone (s : System W) (rank batch : Nat) (op : P2POp) : Bool :=
  if op.isend then s.moved rank op.peer batch = (R.sends rank op.peer batch).length
  else s.moved op.peer rank batch = (R.recvs rank op.peer batch).length

def step (s : System W) : Step → Option (System W)
  | .start rank =>
    match R.plan rank with
    | none => none
    | some plan =>
      if R.Participates rank ∧ s.stage rank = .fresh then
        some { s with
          tempBuffers := copyAll R.layer.numTensors s.weights plan.sameGpuCopies s.tempBuffers
          stage := update s.stage rank (.ready 0) }
      else none
  | .post rank =>
    match s.stage rank with
    | .ready batch =>
      if batch < R.numBatches then
        some { s with stage := update s.stage rank (.posted batch) }
      else none
    | _ => none
  | .move src dst =>
    match s.stage src with
    | .posted batch =>
      if s.stage dst = .posted batch then
        match (R.sends src dst batch)[s.moved src dst batch]?,
          (R.recvs dst src batch)[s.moved src dst batch]? with
        | some send, some recv =>
          some { s with
            tempBuffers := update s.tempBuffers (recv.tensor, recv.location)
              (s.weights (send.tensor, send.location))
            moved := fun a b k =>
              if a = src ∧ b = dst ∧ k = batch then s.moved a b k + 1 else s.moved a b k }
        | _, _ => none
      else none
    | _ => none
  | .wait rank =>
    match s.stage rank with
    | .posted batch =>
      if (R.ops rank batch).all (R.opDone s rank batch) then
        some { s with stage := update s.stage rank (.ready (batch + 1)) }
      else none
    | _ => none
  | .finish rank =>
    match s.stage rank, R.plan rank with
    | .ready batch, some plan =>
      if batch = R.numBatches then
        some { s with
          weights := copyAll R.layer.numTensors s.tempBuffers plan.buffer2weightCopyInfos s.weights
          stage := update s.stage rank .finished }
      else none
    | _, _ => none

/-- Before any rank has begun. -/
def initial (weights tempBuffers : Table W) : System W :=
  ⟨weights, tempBuffers, fun _ => .fresh, fun _ _ _ => 0⟩

/-- The ranks take the steps in the given order. -/
def run (s : System W) : List Step → Option (System W)
  | [] => some s
  | a :: steps => (R.step s a).bind fun s => run s steps

end Redistribution

end SglangRuntime.Eplb
