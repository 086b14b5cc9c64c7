import SglangRuntime.Foundation.Rounding
import SglangRuntime.Managers.PrefillAdder
import Mathlib.Data.PNat.Basic

/-!
# Managers — the token budgets of `PrefillAdder`

`add_one_req`, `add_one_req_ignore_eos` and `add_chunked_req` of `managers/schedule_policy.py`, with
the numbers they compare: the full pool, the sliding-window pool, the chunk and the input budget.
The adder works over any tree cache (`TreePort`), which it locks for the time of a check and once
more for a request it admits.

Token counts are integers.  The estimate of what the running requests will still decode is a
fraction of a count, so `rem_total_token_offset` is a rational number, and every operation on it is
rounded.  What the prefill delayer, the tile budget and a load-back from the host answer is an
argument of the call.  Mamba states, diffusion blocks and a pool of sliding-window layers only are
left out, and so are the counters of hit tokens, which no check reads.
-/

namespace SglangRuntime.Admission

open Foundation
open Scheduling (AddReqResult)

/-- What the estimates read of a request. -/
structure GenLengths where
  ignoreEos : Bool
  maxNewTokens : Nat
  /-- `len(output_ids)` -/
  outputLen : Nat
  /-- `len(origin_input_ids)` -/
  originLen : Nat
deriving DecidableEq, Repr

/-- A request of the running batch.  `filter_batch` runs before the pass and leaves the unfinished
requests, and `update_finish_state` finishes a request at its length limit. -/
structure RunningReq extends GenLengths where
  within_limit : outputLen ≤ maxNewTokens

structure Req (ν : Type) extends GenLengths where
  /-- `len(full_untruncated_fill_ids)` -/
  fillLen : Nat
  /-- `len(prefix_indices)` -/
  prefixLen : Nat
  prefix_le : prefixLen ≤ fillLen
  hostHitLength : Nat
  swaHostHitLength : Nat
  lastNode : ν

namespace Req

variable {ν : Type} (req : Req ν)

/-- A request of which nothing is cached on the device. -/
def unmatched (lengths : GenLengths) (fillLen hostHit swaHostHit : Nat) (node : ν) : Req ν :=
  ⟨lengths, fillLen, 0, Nat.zero_le fillLen, hostHit, swaHostHit, node⟩

def needsHostLoadBack : Bool := decide (0 < req.hostHitLength) || decide (0 < req.swaHostHitLength)

/-- `cand_extend_input_len`. -/
def candExtendInputLen : Int := (req.fillLen : Int) - req.prefixLen

end Req

/-- A request of `can_run_list`, with its `extend_range`. -/
structure Admitted extends GenLengths where
  prefixLen : Nat
  extendLen : Int
deriving DecidableEq, Repr

/-- The tree cache and the allocator behind it, as the adder uses them. -/
structure TreePort (σ ν : Type) where
  /-- what an acquire returns for the release -/
  Receipt : Type
  /-- `getattr(tree_cache, "disable", True)` -/
  disabled : Bool
  incLockRef : σ → ν → σ × Receipt
  decLockRef : σ → ν → Receipt → σ
  /-- of the full pool, when there are two -/
  availableSize : σ → Int
  evictableSize : σ → Int
  swaAvailableSize : σ → Int
  swaEvictableSize : σ → Int
  slidingWindowSize : Nat
  /-- `token_to_kv_pool_allocator.size_swa` -/
  sizeSwa : Nat

/-- What `init_load_back` returns, and the cache it leaves. -/
structure LoadBack (σ ν : Type) where
  cache : σ
  /-- `len(new_indices)` -/
  newIndices : Nat
  lastNode : ν

/-- What the call learns from outside. -/
structure Answers (σ ν : Type) where
  /-- `negotiate_should_allow_prefill`, `true` without a delayer -/
  delayerAllows : Bool
  /-- whether the tile budget refuses the extend length, with requests admitted before -/
  tileStop : Int → Bool
  initLoadBack : σ → LoadBack σ ν

structure AdderConfig where
  pageSize : Nat
  pageSize_pos : 0 < pageSize
  isHybridSwa : Bool
  /-- `CLIP_MAX_NEW_TOKENS` -/
  clipMaxNewTokens : Nat
  newTokenRatio : ℚ
  ratio_nonneg : 0 ≤ newTokenRatio
  runningBatch : List RunningReq
  prefillMaxRequests : Option Nat
  dsaPrefillCpInSeqSplit : Bool
  rounding : Rounding

theorem ratio_one_nonneg : (0 : ℚ) ≤ 1 := zero_le_one

/-- `IGNORE_EOS_RESERVE_TOKENS`. -/
def ignoreEosReserveTokens : Nat := 1

/-- A token count and how many of them are left to decode. -/
abbrev ReqState := ℚ × Nat

structure PrefillAdder (σ : Type) where
  cache : σ
  remInputTokens : Int
  remChunkTokens : Option Int
  remTotalTokenOffset : ℚ
  curRemTokenOffset : Int
  remSwaTokenOffset : Int
  reqStates : Option (List ReqState)
  canRunList : List Admitted
  newChunkedReq : Option Admitted

namespace AdderConfig

variable (c : AdderConfig)

variable (r : GenLengths)

/-- The ratio of its new tokens that a request is expected to decode. -/
def ratioOf : ℚ := if r.ignoreEos then 1 else c.newTokenRatio

/-- `_get_running_request_total_token_offset`. -/
def runningRequestTotalTokenOffset : ℚ :=
  c.rounding.round
    ((min ((r.maxNewTokens : Int) - r.outputLen) c.clipMaxNewTokens : Int) * c.ratioOf r)

def ceilPagedTokens (tokens : Int) : Int := -(-tokens / c.pageSize) * c.pageSize

/-- The pages `alloc_extend` takes for an admitted request. -/
def newPages (e : Admitted) : Int :=
  (e.prefixLen + e.extendLen + c.pageSize - 1) / c.pageSize -
    ((e.prefixLen : Int) + c.pageSize - 1) / c.pageSize

/-- The pages `alloc_extend` takes for the whole batch. -/
def batchPages (l : List Admitted) : Int := (l.map c.newPages).sum

/-- The decode estimate of `add_one_req` and of `_swa_new_tokens`: what remains, then clipped. -/
def remainingNewTokens : Int :=
  min (max ((r.maxNewTokens : Int) - r.outputLen) 0) c.clipMaxNewTokens

/-- What the budget is charged for decoding. -/
def clippedNewTokens : Int := min (r.maxNewTokens : Int) c.clipMaxNewTokens

/-- The states `add_req_state` considers; a request with nothing left is dropped. -/
def reqStateOf : Option ReqState :=
  let tokensLeft := c.rounding.round (c.rounding.round (r.maxNewTokens * c.ratioOf r) - r.outputLen)
  if tokensLeft ≤ 0 then none else some (tokensLeft, r.originLen + r.outputLen)

/-- `add_req_state(..., insert_sort=True)`: before the first state that is not smaller.  The loop
variable stays at the last state when there is none. -/
def insertReqState (states : List ReqState) (r : GenLengths) : List ReqState :=
  match c.reqStateOf r with
  | none => states
  | some x =>
    states.insertIdx ((states.findIdx? fun y => decide (x.1 ≤ y.1)).getD (states.length - 1)) x

/-- The loop of `add_one_req_ignore_eos` over the states, the shortest first. -/
def decodeTokensFit (curRemTokens : Int) : List ReqState → Nat → Bool
  | [], _ => true
  | (tokensLeft, tokensOccupied) :: rest, tokensFreed =>
    let bs := rest.length + 1
    let minFreeTokens := c.rounding.round
      ((curRemTokens + tokensFreed : Int) - c.rounding.round (tokensLeft * bs))
    if minFreeTokens ≤ (ignoreEosReserveTokens * bs : Nat) then false
    else decodeTokensFit curRemTokens rest (tokensFreed + tokensOccupied)

/-- The length of a truncated chunk: whole pages of the limit, cut to the truncation alignment, and
ending on a page; `none` when nothing is left. -/
def truncLen (limit : Int) (prefixLen : Nat) (truncationAlignSize : Option ℕ+) : Option Int :=
  let whole := limit / c.pageSize * c.pageSize
  if whole ≤ 0 then none
  else
    let aligned := match truncationAlignSize with
      | none => some whole
      | some n => if whole < n then none else some (n * (whole / n))
    aligned.bind fun t =>
      let len := (t + prefixLen) / c.pageSize * c.pageSize - prefixLen
      if len ≤ 0 then none else some len

end AdderConfig

namespace PrefillAdder

variable {σ ν : Type} (c : AdderConfig) (P : TreePort σ ν)

def new (cache : σ) (remInputTokens : Int) (remChunkTokens : Option Int)
    (numMixedDecodeTokens : Nat) : PrefillAdder σ where
  cache := cache
  remInputTokens := remInputTokens - numMixedDecodeTokens
  remChunkTokens := remChunkTokens.map (· - numMixedDecodeTokens)
  remTotalTokenOffset := c.rounding.round (numMixedDecodeTokens + c.rounding.sum
    (c.runningBatch.map fun r => c.runningRequestTotalTokenOffset r.toGenLengths))
  curRemTokenOffset := numMixedDecodeTokens
  remSwaTokenOffset := 0
  reqStates := none
  canRunList := []
  newChunkedReq := none

/-! ### The remaining tokens -/

variable (a : PrefillAdder σ)

def remTotalTokens : ℚ :=
  c.rounding.round ((P.availableSize a.cache + P.evictableSize a.cache : Int) - a.remTotalTokenOffset)

def curRemTokens : Int :=
  P.availableSize a.cache + P.evictableSize a.cache - a.curRemTokenOffset

def remSwaTokens : Int :=
  P.swaAvailableSize a.cache + P.swaEvictableSize a.cache - a.remSwaTokenOffset

variable (extendInputLen : Int)

variable (maxNewTokens : Int)

variable (swaHostHitLength : Nat)

def swaReservedTokens : Int :=
  min (extendInputLen + maxNewTokens) P.slidingWindowSize + c.pageSize +
    (if 0 < swaHostHitLength then c.ceilPagedTokens swaHostHitLength else 0)

def swaBudgetForReq : Int :=
  let alloc : Int := match a.remChunkTokens with
    | none => extendInputLen
    | some rem => min extendInputLen rem
  max (alloc - P.slidingWindowSize) 0 +
    swaReservedTokens c P extendInputLen maxNewTokens swaHostHitLength

def swaChunkCap : Int :=
  let cap := a.remSwaTokens P - swaReservedTokens c P 0 maxNewTokens swaHostHitLength
  if cap ≤ 0 then 0 else cap / c.pageSize * c.pageSize

def swaReqNeverFits (a : PrefillAdder σ) (extendInputLen maxNewTokens : Int)
    (swaHostHitLength : Nat) : Prop :=
  a.swaBudgetForReq c P extendInputLen maxNewTokens swaHostHitLength ≥ P.sizeSwa

instance (a : PrefillAdder σ) (e n : Int) (h : Nat) : Decidable (a.swaReqNeverFits c P e n h) :=
  inferInstanceAs (Decidable (_ ≥ _))

def budgetState : AddReqResult :=
  if a.remTotalTokens c P ≤ 0 ∨ a.curRemTokens P ≤ 0 ∨ c.isHybridSwa ∧ a.remSwaTokens P ≤ 0 then
    .noToken
  else if a.remInputTokens ≤ 0 then .other
  else if a.remChunkTokens.any (decide <| · ≤ 0) then .other
  else .continueAdding

def updatePrefillBudget : PrefillAdder σ :=
  let extendInputLen := c.ceilPagedTokens extendInputLen
  { a with
    remTotalTokenOffset := c.rounding.round
      (a.remTotalTokenOffset + (extendInputLen + maxNewTokens + c.pageSize : Int))
    curRemTokenOffset := a.curRemTokenOffset + (extendInputLen + c.pageSize)
    remInputTokens := a.remInputTokens - extendInputLen
    remSwaTokenOffset := if c.isHybridSwa then
        a.remSwaTokenOffset + a.swaBudgetForReq c P extendInputLen maxNewTokens 0
      else a.remSwaTokenOffset
    remChunkTokens := a.remChunkTokens.map (· - extendInputLen) }

/-- `set_extend_range` and the append to `can_run_list`. -/
def append (e : Admitted) : PrefillAdder σ :=
  { a with canRunList := a.canRunList ++ [e] }

/-- `_check_prefill_tile_budget`, which never refuses the first request. -/
def tileStops (ans : Answers σ ν) (extendLen : Int) : Bool :=
  !a.canRunList.isEmpty && ans.tileStop extendLen

/-! ### A chunked request -/

/-- `_rem_tokens` before the fallback; a missing chunk budget raises. -/
def chunkedRemTokens (remChunk : Int) : Int :=
  let rem := min remChunk (truncate (a.remTotalTokens c P))
  if c.isHybridSwa then min rem (a.remSwaTokens P - c.pageSize) else rem

section

variable (req : Req ν)

/-- `add_chunked_req`: whether the request is still chunked, and the adder. -/
def addChunkedReq : Option (Bool × PrefillAdder σ) :=
  a.remChunkTokens.map fun remChunk =>
    let bound := a.chunkedRemTokens c P remChunk
    if bound ≤ 0 ∧ c.isHybridSwa then (true, a)
    else
      let rem := if bound ≤ 0 then remChunk else bound
      let truncated := decide (req.candExtendInputLen > rem)
      let newLen := min req.candExtendInputLen rem
      (truncated, (a.append ⟨req.toGenLengths, req.prefixLen, newLen⟩).updatePrefillBudget c P
        newLen (if truncated then 0 else c.clippedNewTokens req.toGenLengths))

/-! ### Requests of the waiting queue -/

/-- `req_states` with the request considered; the first call collects the running and the admitted
requests and sorts. -/
def considerReqState : List ReqState :=
  match a.reqStates with
  | none =>
    (([req.toGenLengths] ++ c.runningBatch.map (·.toGenLengths) ++
      a.canRunList.map (·.toGenLengths)).filterMap c.reqStateOf).insertionSort fun x y => x.1 ≤ y.1
  | some states => c.insertReqState states req.toGenLengths

/-- The truncated chunk of `add_one_req_ignore_eos`; `none` is the failed assertion that the prefix
is empty. -/
def addChunkIgnoreEos (ans : Answers σ ν) (truncLen : Int) :
    Option (AddReqResult × PrefillAdder σ) :=
  if truncLen ≤ 0 then some (.other, a)
  else if a.tileStops ans truncLen then some (.other, a)
  else if req.prefixLen = 0 then
    let e : Admitted := ⟨req.toGenLengths, req.prefixLen, truncLen⟩
    let a := ({ a.append e with newChunkedReq := some e }).updatePrefillBudget c P truncLen 0
    some (a.budgetState c P, a)
  else none

def addOneReqIgnoreEos (ans : Answers σ ν) : Option (AddReqResult × PrefillAdder σ) :=
  let cand := req.candExtendInputLen
  if (c.ceilPagedTokens cand : ℚ) > min (a.curRemTokens P : ℚ) (a.remTotalTokens c P) then
    some (.noToken, a)
  else if c.isHybridSwa ∧ a.swaBudgetForReq c P cand (c.remainingNewTokens req.toGenLengths) 0 >
      a.remSwaTokens P then some (.noToken, a)
  else
    let states := a.considerReqState c req
    let a := { a with reqStates := some states }
    if !c.isHybridSwa &&
        !c.decodeTokensFit (a.curRemTokens P - c.ceilPagedTokens cand) states 0 then
      some (.noToken, a)
    else if !ans.delayerAllows then some (.other, a)
    else if a.remChunkTokens.all (decide <| cand ≤ ·) then
      if a.tileStops ans cand then some (.other, a)
      else
        let a := (a.append ⟨req.toGenLengths, req.prefixLen, cand⟩).updatePrefillBudget c P cand
          (c.clippedNewTokens req.toGenLengths)
        some (a.budgetState c P, a)
    else
      a.remChunkTokens.bind (a.addChunkIgnoreEos c P req ans)

/-- The sliding-window gate of `add_one_req`: `none` is `NO_TOKEN`, otherwise it is the chunk limit,
lowered when the request can never fit whole. -/
def swaGate (realInputTokens : Int) (limit : Option Int) : Option (Option Int) :=
  let newTokens := c.remainingNewTokens req.toGenLengths
  if c.isHybridSwa ∧ a.swaBudgetForReq c P realInputTokens newTokens req.swaHostHitLength ≥
      a.remSwaTokens P then
    if a.swaReqNeverFits c P realInputTokens newTokens req.swaHostHitLength then
      let swaCap := a.swaChunkCap c P newTokens req.swaHostHitLength
      a.remChunkTokens.bind fun rem => if swaCap ≤ 0 then none else some (some (min rem swaCap))
    else none
  else some limit

end

/-- Without chunked prefill the input budget stops every request but the first. -/
def inputStops (inputTokens : Int) : Bool :=
  a.remChunkTokens.isNone && !a.canRunList.isEmpty && decide (inputTokens ≥ a.remInputTokens)

/-- The load-back of a host hit: the new prefix and the new last node. -/
def loadBack (req : Req ν) (ans : Answers σ ν) : LoadBack σ ν :=
  if req.needsHostLoadBack then ans.initLoadBack a.cache else ⟨a.cache, 0, req.lastNode⟩

/-- The admission of a request of which `extendLen` tokens are prefilled. -/
def accept (lastNode : ν) (e : Admitted) (chunked : Bool)
    (extendInputLen maxNewTokens : Int) : PrefillAdder σ :=
  let a := a.append e
  let a := { a with
    newChunkedReq := if chunked then some e else a.newChunkedReq
    cache := (P.incLockRef a.cache lastNode).1 }
  a.updatePrefillBudget c P extendInputLen maxNewTokens

/-- The end of `add_one_req`, once the load-back has answered: the request is added whole within
the limit, or truncated to it. -/
def addLoaded (req : Req ν) (limit : Option Int)
    (truncationAlignSize : Option ℕ+) (ans : Answers σ ν) (prefixLen : Nat) (lastNode : ν) :
    Option AddReqResult × PrefillAdder σ :=
  let cand := (req.fillLen : Int) - prefixLen
  let inputTokens := c.ceilPagedTokens cand
  if a.inputStops inputTokens then (some .other, a)
  else if limit.all (decide <| inputTokens ≤ ·) then
    if a.tileStops ans inputTokens then (some .other, a)
    else (none, a.accept c P lastNode ⟨req.toGenLengths, prefixLen, cand⟩ false inputTokens
      (c.clippedNewTokens req.toGenLengths))
  else
    match limit.bind fun l => c.truncLen l prefixLen truncationAlignSize with
    | none => (some .other, a)
    | some truncLen =>
      if a.tileStops ans truncLen then (some .other, a)
      else (none, a.accept c P lastNode ⟨req.toGenLengths, prefixLen, truncLen⟩ true truncLen 0)

/-- The body of `add_one_req` under the lock on `last_node`, with the answer it returns early; it
falls through when the request is admitted. -/
def addUnderLock (req : Req ν) (totalTokens realInputTokens : Int)
    (limit : Option Int) (truncationAlignSize : Option ℕ+) (ans : Answers σ ν) :
    Option AddReqResult × PrefillAdder σ :=
  if (totalTokens : ℚ) ≥ a.remTotalTokens c P then (some .noToken, a)
  else
    match a.swaGate c P req realInputTokens limit with
    | none => (some .noToken, a)
    | some limit =>
      if !ans.delayerAllows then (some .other, a)
      else
        let lb := a.loadBack req ans
        ({ a with cache := lb.cache }).addLoaded c P req limit truncationAlignSize ans
          (req.prefixLen + lb.newIndices) lb.lastNode

/-- `with self._lock_node(node)`, followed by `return self.budget_state()`. -/
def withLockNode (node : ν)
    (body : PrefillAdder σ → Option AddReqResult × PrefillAdder σ) : AddReqResult × PrefillAdder σ :=
  let (cache, receipt) := P.incLockRef a.cache node
  let (res, a) := body { a with cache := cache }
  let a := { a with cache := P.decLockRef a.cache node receipt }
  (res.getD (a.budgetState c P), a)

def addOneReq (req : Req ν) (truncationAlignSize : Option ℕ+)
    (ans : Answers σ ν) : Option (AddReqResult × PrefillAdder σ) :=
  if c.dsaPrefillCpInSeqSplit && !a.canRunList.isEmpty then some (.other, a)
  else if c.prefillMaxRequests.any (decide <| · ≤ a.canRunList.length) then some (.other, a)
  else if req.ignoreEos && P.disabled then a.addOneReqIgnoreEos c P req ans
  else
    let totalTokens := req.candExtendInputLen + c.remainingNewTokens req.toGenLengths + c.pageSize
    let realInputTokens := c.ceilPagedTokens (req.candExtendInputLen - req.hostHitLength)
    if (totalTokens : ℚ) ≥ a.remTotalTokens c P then some (.noToken, a)
    else
      match a.swaGate c P req realInputTokens a.remChunkTokens with
      | none => some (.noToken, a)
      | some limit =>
        if a.inputStops realInputTokens then some (.other, a)
        else some (a.withLockNode c P req.lastNode fun a =>
          a.addUnderLock c P req totalTokens realInputTokens limit truncationAlignSize ans)

end PrefillAdder

end SglangRuntime.Admission
