import Mathlib.Data.Rat.Defs
import Mathlib.Data.Finset.Image
import Mathlib.Algebra.Order.Ring.Unbundled.Rat

/-!
# Expert parallelism — rebalancing the experts, and faults

`EPLBManager` of `eplb/eplb_manager.py` with the two ways into its `rebalance`: the periodic one, a
generator that `on_forward_pass_end` resumes once for each forward pass and that may be suspended
between two chunks of layers, and the one after a rank fault, which
`maybe_rebalance_after_rank_fault` of `elastic_ep/elastic_ep.py` runs to its end.  The placement is
that of `eplb_algorithms/elasticity_aware.py` and `expert_location.py`.

Of the placement only what is dispatched by is kept, the physical slots of each logical expert in
each layer, as a set: padding and the order of replicas play no part.  What the recorder reports and
how the balancer distributes the experts over the active ranks are inputs of a step.

The set of ranks for which `maybe_rebalance_after_rank_fault` last returned true is kept for the
statements only; no step reads it.
-/

namespace SglangRuntime.Eplb

inductive ScalePhase where
  | idle
  | waitingForCohort
  | pending
  | joining
  | configuringDataPlane
  | syncingNewWorld
  | servingExpanded
  | failed
  | recoveryUnsupported
deriving DecidableEq

structure Config where
  epSize : Nat
  numLocalPhysicalExperts : Nat
  /-- the layers with routed experts, in order -/
  layerIds : List Nat
  rebalanceNumIterations : Nat
  rebalanceLayersPerChunk : Option Nat
  eplbMinRebalancingUtilizationThreshold : Rat
  /-- the rank's own number, where an all-to-all backend is in use -/
  dispatchRank : Option Nat

/-- The physical slots of an expert in a layer. -/
abbrev ExpertMap := Nat → Nat → Finset Nat

/-- A placement to be installed. -/
structure Plan where
  numPhysicalExperts : Nat
  logicalToAllPhysicalMap : ExpertMap

/-! ### The placement -/

/-- The slices of the active ranks, of a placement on the active ranks alone. -/
def rankSlices (numLocal numActive : Nat) (phy2log : Nat → Nat) : List (List Nat) :=
  (List.range numActive).map fun rank =>
    (List.range numLocal).map fun slot => phy2log (rank * numLocal + slot)

/-- A slice of zeros is inserted at the place of each rank that is not active. -/
def insertFailed (numLocal : Nat) : Nat → List Bool → List (List Nat) → List (List Nat)
  | _, [], slices => slices
  | idx, active :: ranks, slices =>
    insertFailed numLocal (idx + 1) ranks
      (if active then slices else slices.take idx ++ List.replicate numLocal 0 :: slices.drop idx)

/-- The slots from the place of each rank that is not active on are moved up. -/
def shiftFailed (numLocal : Nat) : Nat → List Bool → Finset Nat → Finset Nat
  | _, [], slots => slots
  | idx, active :: ranks, slots =>
    shiftFailed numLocal (idx + 1) ranks
      (if active then slots
       else slots.image fun slot => if idx * numLocal ≤ slot then slot + numLocal else slot)

/-- `rebalance_experts`, given the balancer's placement on the active ranks: the expert of each slot
in each layer, and the slots of each expert. -/
def rebalanceExperts (cfg : Config) (activeRanks : List Bool) (phy2log : Nat → Nat → Nat) :
    (Nat → List Nat) × ExpertMap :=
  let numLocal := cfg.numLocalPhysicalExperts
  let numActive := activeRanks.count true
  let log2phy : ExpertMap := fun layer expert =>
    (Finset.range (numLocal * numActive)).filter fun slot => phy2log layer slot = expert
  let slices := fun layer => rankSlices numLocal numActive (phy2log layer)
  if numActive < cfg.epSize then
    (fun layer => (insertFailed numLocal 0 activeRanks (slices layer)).flatten,
      fun layer expert => shiftFailed numLocal 0 activeRanks (log2phy layer expert))
  else (fun layer => (slices layer).flatten, log2phy)

/-- `_find_nearest_expert`, in a world that does not prefer the own node. -/
def findNearestExpert (candidates : List Nat) (numLocal rank : Nat) : Option Nat :=
  match candidates with
  | [slot] => some slot
  | _ => candidates.find? fun slot => slot / numLocal = rank

/-- The slots of each expert by the expert of each slot, as `init_by_mapping` finds them. -/
def initByMapping (cfg : Config) (phy2log : Nat → List Nat) : ExpertMap := fun layer expert =>
  let candidates := (List.range (phy2log layer).length).filter fun slot =>
    (phy2log layer)[slot]? = some expert
  match cfg.dispatchRank.bind (findNearestExpert candidates cfg.numLocalPhysicalExperts) with
  | some slot => {slot}
  | none => candidates.toFinset

/-! ### The manager -/

def chunkFrom (chunkSize : Nat) : Nat → List Nat → List (List Nat)
  | 0, _ => []
  | _ + 1, [] => []
  | fuel + 1, items => items.take chunkSize :: chunkFrom chunkSize fuel (items.drop chunkSize)

/-- `_chunk_list`. -/
def chunkList (items : List Nat) (chunkSize : Nat) : List (List Nat) :=
  chunkFrom chunkSize items.length items

/-- `_compute_update_layer_ids_chunks`; a size of zero is like none. -/
def Config.updateLayerIdsChunks (cfg : Config) : List (List Nat) :=
  chunkList cfg.layerIds
    (match cfg.rebalanceLayersPerChunk with
      | some (n + 1) => n + 1
      | _ => 1000000)

/-- Where the periodic generator stands. -/
inductive Generator where
  /-- the number of passes to let go by before the next rebalance -/
  | waiting (left : Nat)
  /-- inside a rebalance, with the chunks still to install -/
  | suspended (plan : Plan) (chunks : List (List Nat))

structure State where
  activeRanks : List Bool
  lastActiveRanks : List Bool
  hasScaled : Bool
  pendingEpSize : Option Nat
  scalePhase : ScalePhase
  rebalanceDisabled : Bool
  /-- the installed map -/
  logicalToAllPhysicalMap : ExpertMap
  generator : Generator
  /-- inside `maybe_rebalance_after_rank_fault` -/
  inFault : Bool
  /-- the active ranks for which it last returned true -/
  handled : Option (List Bool)

/-- What a rebalance is told: the utilization of the window, and the balancer's placement on the
active ranks. -/
structure Report where
  averageUtilizationRateOverWindow : Option Rat
  phy2log : Nat → Nat → Nat

inductive Action where
  | fault (rank : Nat)
  /-- the fault is noticed and the active ranks are recorded -/
  | beginFault
  /-- the rebalance after the fault runs to its end -/
  | runFault (report : Report)
  | onForwardPassEnd (report : Report)

variable (cfg : Config)

variable (report : Report)

/-- The utilization is above the threshold. -/
def Report.balanced : Bool :=
  report.averageUtilizationRateOverWindow.any
    fun average => decide (cfg.eplbMinRebalancingUtilizationThreshold < average)

variable (s : State)

/-- The early returns of `rebalance`. -/
def State.skipsRebalance : Bool :=
  s.rebalanceDisabled ||
    (s.hasScaled && (s.pendingEpSize.isSome ||
      !(s.scalePhase = .servingExpanded || s.scalePhase = .failed))) ||
    report.balanced cfg

/-- `_compute_expert_location_metadata`.  After a scale-up the placement is made anew from the expert
of each slot, which one rank has broadcast. -/
def State.computeExpertLocationMetadata : Plan :=
  let (phy2log, log2phy) := rebalanceExperts cfg s.activeRanks report.phy2log
  { numPhysicalExperts := (phy2log 0).length
    logicalToAllPhysicalMap := if s.hasScaled then initByMapping cfg phy2log else log2phy }

/-- `ExpertLocationMetadata.update`; a placement of another width is refused. -/
def State.install (plan : Plan) (layerIds : List Nat) : Option State :=
  if plan.numPhysicalExperts = cfg.numLocalPhysicalExperts * cfg.epSize then
    some { s with logicalToAllPhysicalMap := fun layer =>
      if layer ∈ layerIds then plan.logicalToAllPhysicalMap layer
      else s.logicalToAllPhysicalMap layer }
  else none

/-- All chunks of a rebalance, one after the other. -/
def State.installAll (s : State) (plan : Plan) : List (List Nat) → Option State
  | [] => some s
  | chunk :: chunks => (s.install cfg plan chunk).bind fun s => s.installAll plan chunks

/-- The generator goes back to counting passes. -/
def State.rearm : State :=
  { s with generator := .waiting (cfg.rebalanceNumIterations - 1) }

/-- `on_forward_pass_end`: the generator runs to its next yield. -/
def State.resume : Option State :=
  match s.generator with
  | .waiting (left + 1) => some { s with generator := .waiting left }
  | .waiting 0 =>
    if s.skipsRebalance cfg report then some (s.rearm cfg)
    else
      let plan := s.computeExpertLocationMetadata cfg report
      let chunks := cfg.updateLayerIdsChunks
      if 1 < chunks.length then some { s with generator := .suspended plan chunks }
      else (s.installAll cfg plan chunks).map (State.rearm cfg)
  | .suspended _ [] => some (s.rearm cfg)
  | .suspended plan (chunk :: chunks) =>
    (s.install cfg plan chunk).map fun s =>
      if chunks = [] then s.rearm cfg else { s with generator := .suspended plan chunks }

def State.step : Action → Option State
  | .fault rank => some { s with activeRanks := s.activeRanks.set rank false }
  | .beginFault =>
    if s.inFault || s.activeRanks = s.lastActiveRanks then none
    else some { s with lastActiveRanks := s.activeRanks, inFault := true, handled := none }
  | .runFault report =>
    if s.inFault then
      (if s.skipsRebalance cfg report then some s
        else s.installAll cfg (s.computeExpertLocationMetadata cfg report)
          cfg.updateLayerIdsChunks).map
        fun s => { s with inFault := false, handled := some s.lastActiveRanks }
    else none
  | .onForwardPassEnd report => if s.inFault then none else s.resume cfg report

def State.run (s : State) : List Action → Option State
  | [] => some s
  | a :: as => (s.step cfg a).bind fun s => s.run as

/-- The server as it starts, with the first ranks active and the others reserved. -/
structure Starts (s : State) : Prop where
  active : ∀ rank : Nat, s.activeRanks[rank]? = some true ↔ rank < cfg.epSize
  last : s.lastActiveRanks = s.activeRanks
  waiting : s.generator = .waiting cfg.rebalanceNumIterations
  idle : s.inFault = false
  unhandled : s.handled = none

end SglangRuntime.Eplb
