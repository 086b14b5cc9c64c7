import Mathlib.Data.List.Sort
import Mathlib.Data.Rat.Defs
import Mathlib.Algebra.Order.Ring.Rat

/-!
# Managers — `PrefillAdder`

One prefill pass collects requests in `can_run_list` and, under priority preemption, the running
requests it has released in `preempt_list`.  What the pass asks of the pools and of the tree cache
(free rows, remaining tokens, whether a prefetch is done, every budget check of `add_one_req`) comes
from outside: `Trial` holds the answers for one waiting request, which the pass visits once.
-/

namespace SglangRuntime.Scheduling

open List

/-- `req.rid`, of which only the identity is used. -/
abbrev Rid := Nat

structure Req where
  rid : Rid
  priority : Option Int
  /-- `time_stats.wait_queue_entry_time` -/
  waitQueueEntryTime : ℚ
  /-- `finished_reason is not None` -/
  finished : Bool
  ignoreEos : Bool
  maxNewTokens : Int
  /-- `len(output_ids)` -/
  outputLen : Nat
  /-- `len(full_untruncated_fill_ids)` -/
  fillLen : Nat
  /-- `len(prefix_indices)` -/
  prefixLen : Nat
  /-- `req_pool_idx is not None` -/
  holdsRow : Bool
  returnLogprob : Bool
  /-- `input_embeds is not None` -/
  hasInputEmbeds : Bool
deriving DecidableEq, Repr

/-- `ScheduleBatch`, as far as prefill scheduling reads it. -/
structure ScheduleBatch where
  reqs : List Req
  batchIsFull : Bool
  returnLogprob : Bool
deriving DecidableEq, Repr

inductive DisaggregationMode where
  | null | prefill | decode
deriving DecidableEq, Repr

structure SchedulerConfig where
  enablePriorityScheduling : Bool
  disablePriorityPreemption : Bool
  scheduleLowPriorityValuesFirst : Bool
  abortOnPriorityWhenDisabled : Bool
  prioritySchedulingPreemptionThreshold : Int
  maxQueuedRequests : Option Nat
  ppMaxMicroBatchSize : Int
  prefillMaxRequests : Option Nat
  disaggregationMode : DisaggregationMode
  enableLora : Bool
  enableHierarchicalCache : Bool
  enableHicacheStorage : Bool
  isHybridSwa : Bool
  isMixedChunk : Bool
  /-- `TEST_RETRACT_NO_PREFILL_BS`, when `TEST_RETRACT` is set -/
  testRetract : Option Nat
  dsaPrefillCpInSeqSplit : Bool
  /-- `getattr(tree_cache, "disable", True)` -/
  treeCacheDisabled : Bool
  chunkedPrefill : Bool
  newTokenRatio : ℚ
  clipMaxNewTokens : Int
deriving DecidableEq, Repr

def SchedulerConfig.enablePriorityPreemption (c : SchedulerConfig) : Bool :=
  c.enablePriorityScheduling && !c.disablePriorityPreemption

/-- A way to list the same elements in some order: a sort, a shuffle, the iteration over a set. -/
structure Reorder where
  apply : List Req → List Req
  perm : ∀ q, (apply q).Perm q

def Reorder.id : Reorder := ⟨fun q => q, .refl⟩

inductive AddReqResult where
  /-- `CONTINUE`: continue to add requests -/
  | continueAdding
  | noToken
  | other
deriving DecidableEq, Repr

/-- What the chunk budget leaves of a request: all of it, a page-aligned part, or no page. -/
inductive ExtendOutcome where
  | whole | truncated | nothing
deriving DecidableEq, Repr

/-- The answers of the checks of `add_one_req`, in the order it makes them. -/
structure AdmissionChecks where
  /-- `total_tokens < rem_total_tokens` -/
  totalTokensFit : Bool
  /-- the SWA budget, or the cap on the chunk in its place -/
  swaTokensFit : Bool
  /-- `real_input_tokens < rem_input_tokens` -/
  inputTokensFit : Bool
  /-- the first two checks again, under the lock on `last_node` -/
  totalTokensFitLocked : Bool
  swaTokensFitLocked : Bool
  /-- the loop over `req_states` of `add_one_req_ignore_eos` -/
  decodeTokensFit : Bool
  /-- `negotiate_should_allow_prefill` -/
  delayerAllows : Bool
  /-- `input_tokens < rem_input_tokens`, after a load-back -/
  inputTokensFitLoaded : Bool
  extend : ExtendOutcome
  /-- `_check_prefill_tile_budget` with a nonempty `can_run_list` -/
  tileBudgetFits : Bool
  /-- `budget_state()` once the request has been added -/
  budgetState : AddReqResult
deriving DecidableEq, Repr

/-- What the pass learns when it visits a waiting request. -/
structure Trial where
  /-- `_can_schedule_lora_req` -/
  canScheduleLora : Bool
  /-- `req_to_token_pool.available_size()` -/
  availableRows : Int
  /-- `rem_total_tokens` at the time of `preempt_to_schedule` -/
  remTotalTokens : ℚ
  /-- `check_prefetch_progress` -/
  prefetchDone : Bool
  checks : AdmissionChecks
deriving DecidableEq, Repr

/-- What `add_chunked_req` does with the request it continues. -/
inductive ChunkOutcome where
  /-- no page fits: the request is returned and not added -/
  | parked
  /-- added, and not finished by this chunk -/
  | truncated
  /-- added with its last chunk -/
  | lastChunk
deriving DecidableEq, Repr

structure PrefillAdder where
  runningBatch : ScheduleBatch
  canRunList : List Req
  preemptList : List Req
  newChunkedReq : Option Req
deriving DecidableEq, Repr

/-- The requests of `q` that are not among `l`. -/
def without (l q : List Req) : List Req :=
  q.filter fun r => decide (r.rid ∉ l.map Req.rid)

namespace ScheduleBatch

variable (b : ScheduleBatch)

/-- `filter_batch` with given `keep_indices`: the requests of the batch that are in `keep`. -/
def filterKeep (keep : List Req) : ScheduleBatch :=
  if keep = [] then { b with reqs := [] }
  else if keep.length = b.reqs.length then b
  else { b with reqs := keep, returnLogprob := keep.any Req.returnLogprob }

/-- `filter_batch()`: drop what has finished. -/
def filterBatch : ScheduleBatch :=
  b.filterKeep (b.reqs.filter fun r => !r.finished)

end ScheduleBatch

namespace PrefillAdder

variable (c : SchedulerConfig)

section

variable (a : PrefillAdder)

section

variable (req : Req)

section

variable (k : AdmissionChecks)

/-- The common end of `add_one_req` and `add_one_req_ignore_eos`: append the request, whole or
truncated, unless no page or no tile budget is left for it. -/
def addExtend : AddReqResult × PrefillAdder :=
  if k.extend = .nothing then (.other, a)
  -- the tile budget never refuses the first request
  else if !a.canRunList.isEmpty && !k.tileBudgetFits then (.other, a)
  else (k.budgetState,
    { a with
      canRunList := a.canRunList ++ [req]
      newChunkedReq := if k.extend = .truncated then some req else a.newChunkedReq })

def addOneReqIgnoreEos :
    AddReqResult × PrefillAdder :=
  if !k.totalTokensFit then (.noToken, a)
  else if c.isHybridSwa && !k.swaTokensFit then (.noToken, a)
  else if !c.isHybridSwa && !k.decodeTokensFit then (.noToken, a)
  else if !k.delayerAllows then (.other, a)
  else a.addExtend req k

def addOneReq : AddReqResult × PrefillAdder :=
  if c.dsaPrefillCpInSeqSplit && !a.canRunList.isEmpty then (.other, a)
  else if c.prefillMaxRequests.any fun x => decide (x ≤ a.canRunList.length) then (.other, a)
  else if req.ignoreEos && c.treeCacheDisabled then a.addOneReqIgnoreEos c req k
  else if !k.totalTokensFit then (.noToken, a)
  else if c.isHybridSwa && !k.swaTokensFit then (.noToken, a)
  else if !c.chunkedPrefill && !a.canRunList.isEmpty && !k.inputTokensFit then (.other, a)
  else if !k.totalTokensFitLocked then (.noToken, a)
  else if c.isHybridSwa && !k.swaTokensFitLocked then (.noToken, a)
  else if !k.delayerAllows then (.other, a)
  else if !c.chunkedPrefill && !a.canRunList.isEmpty && !k.inputTokensFitLoaded then (.other, a)
  else a.addExtend req k

end

/-- `add_chunked_req`: what is left to continue, and the adder. -/
def addChunkedReq : ChunkOutcome → Option Req × PrefillAdder
  | .parked => (some req, a)
  | .truncated => (some req, { a with canRunList := a.canRunList ++ [req] })
  | .lastChunk => (none, { a with canRunList := a.canRunList ++ [req] })

/-! ### `preempt_to_schedule` -/

end

end

variable (r : Req)

/-- `_get_running_request_total_token_offset`. -/
def runningRequestTotalTokenOffset : ℚ :=
  (min (r.maxNewTokens - r.outputLen) c.clipMaxNewTokens : Int) *
    (if r.ignoreEos then 1 else c.newTokenRatio)

def prioritySign : Int := if c.scheduleLowPriorityValuesFirst then 1 else -1

/-- The sort key of running requests, the first to be preempted first. -/
def preemptKey : Int × ℚ :=
  (r.priority.getD 0 * -prioritySign c, -r.waitQueueEntryTime)

/-- Comparison of tuples. -/
def keyLe (x y : Int × ℚ) : Prop := x.1 < y.1 ∨ x.1 = y.1 ∧ x.2 ≤ y.2

instance (x y : Int × ℚ) : Decidable (keyLe x y) := by unfold keyLe; infer_instance

/-- The loop that collects `preemptible_reqs`, with the tokens still to remove. -/
def collectPreemptible (priority : Int) : List Req → ℚ → List Req × ℚ
  | [], need => ([], need)
  | r :: rs, need =>
    if c.prioritySchedulingPreemptionThreshold <
        (priority - r.priority.getD 0) * -prioritySign c then
      let need := need - runningRequestTotalTokenOffset c r
      if need ≤ 0 then ([r], need)
      else ((r :: (collectPreemptible priority rs need).1), (collectPreemptible priority rs need).2)
    else ([], need)

/-- `release_req`: the fields that `reset_for_retract` clears. -/
def releaseReq : Req :=
  { r with
    prefixLen := 0
    holdsRow := false
    outputLen := if r.hasInputEmbeds then 0 else r.outputLen }

/-- `valid_running_reqs`: a request that has finished has already freed its cache. -/
def validRunningReqs (a : PrefillAdder) : List Req :=
  (without a.preemptList a.runningBatch.reqs).filter fun r => !r.finished

/-- `min_tokens_to_remove` before any request is chosen. -/
def minTokensToRemove (req : Req) (remTotalTokens : ℚ) : ℚ :=
  ((req.fillLen : Int) - req.prefixLen + min req.maxNewTokens c.clipMaxNewTokens : Int) -
    remTotalTokens

/-- The requests that `preempt_to_schedule` would release for `req`: none when it returns `False`,
no answer when it raises on a missing priority. -/
def preemptibleReqs (a : PrefillAdder) (req : Req) (remTotalTokens : ℚ) : Option (List Req) :=
  let valid := a.validRunningReqs
  if valid = [] then some []
  else if valid.any fun r => r.priority.isNone then none
  else
    match req.priority with
    | none => none
    | some priority =>
      let sorted := valid.insertionSort fun x y => keyLe (preemptKey c x) (preemptKey c y)
      let found := collectPreemptible c priority sorted (minTokensToRemove c req remTotalTokens)
      if 0 < found.2 then some [] else some found.1

/-- The release of `preemptible`, which leaves the running batch at once. -/
def preempt (a : PrefillAdder) (setOrder : Reorder) (preemptible : List Req) : PrefillAdder :=
  { a with
    runningBatch := a.runningBatch.filterKeep (without preemptible a.runningBatch.reqs)
    preemptList := a.preemptList ++ (setOrder.apply preemptible).map releaseReq }

def preemptToSchedule (setOrder : Reorder) (a : PrefillAdder) (req : Req) (remTotalTokens : ℚ) :
    Option (Bool × PrefillAdder) :=
  (a.preemptibleReqs c req remTotalTokens).map fun l =>
    if l = [] then (false, a) else (true, a.preempt setOrder l)

/-! ### The requests that are chosen -/

section Choice

variable {c : SchedulerConfig} {a : PrefillAdder} {priority : Int} {need : ℚ} {l : List Req}

section

variable (c : SchedulerConfig)

/-- The valid running requests, the least favoured first. -/
def leastFavoured (a : PrefillAdder) : List Req :=
  a.validRunningReqs.insertionSort fun x y => keyLe (preemptKey c x) (preemptKey c y)

def totalOffset (l : List Req) : ℚ :=
  (l.map (runningRequestTotalTokenOffset c)).sum

/-- `priority_diff > priority_scheduling_preemption_threshold`. -/
def Beats (priority : Int) (r : Req) : Prop :=
  c.prioritySchedulingPreemptionThreshold < (priority - r.priority.getD 0) * -prioritySign c

end

/-- The shortest run of the least favoured requests whose estimates cover `need`. -/
structure Chosen (c : SchedulerConfig) (priority : Int) (rs : List Req) (need : ℚ) (l : List Req) :
    Prop where
  least : l <+: rs
  beats : ∀ r ∈ l, Beats c priority r
  covers : need ≤ totalOffset c l
  shortest : ∀ p, p <+: l → p ≠ [] → p ≠ l → totalOffset c p < need

theorem collectPreemptible_chosen {rs : List Req}
    (h : (collectPreemptible c priority rs need).2 ≤ 0) :
    Chosen c priority rs need (collectPreemptible c priority rs need).1 := by
  induction rs generalizing need with
  | nil => exact ⟨ nil_prefix, nofun, h, fun p hp h0 => absurd (prefix_nil.mp hp) h0⟩
  | cons r rs ih =>
    rw [collectPreemptible] at h ⊢
    by_cases hr : c.prioritySchedulingPreemptionThreshold <
        (priority - r.priority.getD 0) * -prioritySign c
    · rw [if_pos hr] at h ⊢
      by_cases hneed : need - runningRequestTotalTokenOffset c r ≤ 0
      · simp only [if_pos hneed]
        refine ⟨by simp, by simpa [Beats] using hr, by simpa [totalOffset] using hneed, ?_⟩
        intro p hp h0 hne
        obtain rfl | ⟨t, rfl, ht⟩ := prefix_cons_iff.mp hp
        · exact absurd rfl h0
        · exact absurd (congrArg (r :: ·) (prefix_nil.mp ht)) hne
      · simp only [if_neg hneed] at h ⊢
        obtain ⟨hleast, hbeats, hcovers, hshort⟩ := ih h
        refine ⟨cons_prefix_cons.mpr ⟨rfl, hleast⟩, ?_, ?_, ?_⟩
        · exact forall_mem_cons.mpr ⟨hr, hbeats⟩
        · rw [totalOffset, map_cons, sum_cons]
          exact sub_le_iff_le_add'.mp hcovers
        · intro p hp h0 hne
          obtain rfl | ⟨t, rfl, ht⟩ := prefix_cons_iff.mp hp
          · exact absurd rfl h0
          rw [totalOffset, map_cons, sum_cons]
          rcases eq_or_ne t [] with rfl | h0'
          · simpa using hneed
          · exact lt_sub_iff_add_lt'.mp (hshort t ht h0' fun heq => hne (heq ▸ rfl))
    · rw [if_neg hr] at h ⊢
      exact ⟨ nil_prefix, nofun, h, fun p hp h0 => absurd (prefix_nil.mp hp) h0⟩

theorem preemptibleReqs_chosen {req : Req} {rem : ℚ}
    (h : a.preemptibleReqs c req rem = some l) (hl : l ≠ []) :
    ∃ priority, req.priority = some priority ∧
      Chosen c priority (a.leastFavoured c) (minTokensToRemove c req rem) l := by
  simp only [preemptibleReqs] at h
  split_ifs at h with hvalid hnone
  · exact absurd (Option.some.inj h).symm hl
  rcases hp : req.priority with - | priority <;> rw [hp] at h
  · cases h
  simp only at h
  split_ifs at h with hpos
  · exact absurd (Option.some.inj h).symm hl
  obtain rfl := Option.some.inj h
  exact ⟨priority, rfl, collectPreemptible_chosen (not_lt.mp hpos)⟩

theorem keyLe_trans {x y z : Int × ℚ} (hxy : keyLe x y) (hyz : keyLe y z) : keyLe x z := by
  unfold keyLe at *
  grind

/-- What is released is unfinished and runs, and what is not is favoured more. -/
theorem Chosen.least_favoured (h : Chosen c priority (a.leastFavoured c) need l) :
    (∀ r ∈ l, r ∈ a.runningBatch.reqs ∧ r.finished = false) ∧
      ∀ r ∈ l, ∀ r' ∈ a.validRunningReqs, r' ∉ l → keyLe (preemptKey c r) (preemptKey c r') := by
  have htotal : Std.Total fun x y : Req => keyLe (preemptKey c x) (preemptKey c y) :=
    ⟨fun x y => by unfold keyLe; grind⟩
  have htrans : IsTrans Req fun x y => keyLe (preemptKey c x) (preemptKey c y) :=
    ⟨fun _ _ _ => keyLe_trans⟩
  have hperm := perm_insertionSort
    (fun x y : Req => keyLe (preemptKey c x) (preemptKey c y)) a.validRunningReqs
  obtain ⟨rest, hrest⟩ := h.least
  constructor
  · intro r hr
    have hvalid := hperm.mem_iff.mp (hrest ▸ mem_append_left rest hr :
      r ∈ a.leastFavoured c)
    rw [validRunningReqs, mem_filter, without, mem_filter] at hvalid
    exact ⟨hvalid.1.1, by simpa using hvalid.2⟩
  · intro r hr r' hr' hnot
    have hsorted := pairwise_insertionSort
      (fun x y : Req => keyLe (preemptKey c x) (preemptKey c y)) a.validRunningReqs
    have hmem : r' ∈ a.leastFavoured c := hperm.mem_iff.mpr hr'
    rw [← hrest, mem_append] at hmem
    change (a.leastFavoured c).Pairwise _ at hsorted
    rw [← hrest] at hsorted
    exact (pairwise_append.mp hsorted).2.2 r hr r' (hmem.resolve_left hnot)

end Choice

end PrefillAdder

end SglangRuntime.Scheduling
