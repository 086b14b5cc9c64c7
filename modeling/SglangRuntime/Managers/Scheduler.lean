import SglangRuntime.Managers.PrefillAdder

/-!
# Managers — prefill scheduling

`Scheduler._get_new_batch_prefill_raw`: from the waiting queue and the running batch to a prefill
batch.  A pass that returns before its end leaves the waiting queue as it is, up to its order.

An answer sent to a client is recorded in `aborted`, and a request handed to a queue of
disaggregated serving in `handedOver`.  A result of `none` is an exception: an assertion, the maximum
of an empty queue, or arithmetic on a missing priority.
-/

namespace SglangRuntime.Scheduling

structure SchedulerState where
  waitingQueue : List Req
  chunkedReq : Option Req
  aborted : List Req
  handedOver : List Req
deriving DecidableEq, Repr

/-- What one pass is told by its environment. -/
structure Outcomes where
  /-- `get_ready_grammar_requests()` -/
  readyGrammarRequests : List Req
  /-- `min_free_slots_delayer.should_delay(..)` -/
  shouldDelay : Bool
  /-- `req_to_token_pool.available_size()` before the pass -/
  availableRows : Int
  /-- the order that `calc_priority` gives the waiting queue -/
  calcPriority : Reorder
  /-- the iteration order of the set of preempted requests -/
  setOrder : Reorder
  addChunkedReq : ChunkOutcome
  trial : Rid → Trial
  /-- the clock when a request enters the waiting queue -/
  now : Rid → ℚ

/-- The prefill batch, the running batch and the scheduler after a pass. -/
structure PrefillPlan where
  scheduler : SchedulerState
  batchToRun : Option (List Req)
  runningBatch : ScheduleBatch
deriving DecidableEq, Repr

variable (c : SchedulerConfig) (o : Outcomes)

/-! ### `_add_request_to_queue` -/

/-- The least preferred priority: `sys.maxsize` or `-sys.maxsize - 1`. -/
def defaultPriority : Int :=
  if c.scheduleLowPriorityValuesFirst then 2 ^ 63 - 1 else -(2 ^ 63 - 1) - 1

/-- `_set_or_validate_priority`: the request with its priority, or `none` if it was answered with
an abort. -/
def setOrValidatePriority (req : Req) : Option Req :=
  if c.enablePriorityScheduling && req.priority.isNone then
    some { req with priority := some (defaultPriority c) }
  else if !c.enablePriorityScheduling && req.priority.isSome && c.abortOnPriorityWhenDisabled then
    none
  else some req

/-- The key by which `_abort_on_queued_limit` picks the least preferred request. -/
def abortKey (r : Req) : Int × ℚ :=
  (PrefillAdder.prioritySign c * r.priority.getD 0, r.waitQueueEntryTime)

/-- The position of the first request of the queue with a maximal key. -/
def leastPreferred : List Req → Option (Nat × Req)
  | [] => none
  | r :: q =>
    match leastPreferred q with
    | none => some (0, r)
    | some (i, b) =>
      if PrefillAdder.keyLe (abortKey c b) (abortKey c r) then some (0, r) else some (i + 1, b)

variable (s : SchedulerState)

/-- `_abort_on_queued_limit`: whether the incoming request was aborted. -/
def abortOnQueuedLimit (req : Req) : Option (Bool × SchedulerState) :=
  if c.maxQueuedRequests.all fun limit => decide (s.waitingQueue.length + 1 ≤ limit) then
    some (false, s)
  else if c.enablePriorityScheduling then
    if (req :: s.waitingQueue).any fun r => r.priority.isNone then none
    else
      match leastPreferred c s.waitingQueue with
      | none => none
      | some (idx, candidate) =>
        if (abortKey c req).1 < (abortKey c candidate).1 then
          some (candidate.rid == req.rid,
            { s with
              waitingQueue := s.waitingQueue.eraseIdx idx
              aborted := s.aborted ++ [candidate] })
        else some (true, { s with aborted := s.aborted ++ [req] })
  else some (true, { s with aborted := s.aborted ++ [req] })

def addRequestToQueue (req : Req) : Option SchedulerState :=
  match setOrValidatePriority c req with
  | none => some { s with aborted := s.aborted ++ [req] }
  | some req =>
    match c.disaggregationMode with
    | .null =>
      (abortOnQueuedLimit c s req).map fun (aborted, s) =>
        if aborted then s
        else { s with
          waitingQueue := s.waitingQueue ++ [{ req with waitQueueEntryTime := o.now req.rid }] }
    | .prefill | .decode => some { s with handedOver := s.handedOver ++ [req] }

def addRequestsToQueue : List Req → SchedulerState → Option SchedulerState
  | [], s => some s
  | req :: reqs, s => (addRequestToQueue c o s req).bind (addRequestsToQueue reqs)

/-! ### One pass over the waiting queue -/

variable (availableRows : Int)

/-- `get_num_allocatable_reqs`. -/
def numAllocatableReqs (runningBs numHeldRows : Nat) : Int :=
  min (c.ppMaxMicroBatchSize - runningBs) (availableRows + numHeldRows)

namespace PrefillAdder

variable (a : PrefillAdder)

/-- `num_held_rows`: the requests of `can_run_list` that need no new row. -/
def numHeldRows : Nat :=
  a.canRunList.countP Req.holdsRow

def setFull (full : Bool) : PrefillAdder :=
  { a with runningBatch := { a.runningBatch with batchIsFull := full } }

/-- Whether the batch is full when a request with the given number of free rows is visited. -/
def isFull : Bool :=
  a.runningBatch.batchIsFull ||
    decide (numAllocatableReqs c availableRows a.runningBatch.reqs.length a.numHeldRows ≤
      a.canRunList.length) ||
    c.disaggregationMode == .prefill &&
      decide (availableRows ≤ (a.canRunList.length : Int) - a.numHeldRows)

/-- `batch_is_full` after `add_one_req` has answered `NO_TOKEN`. -/
def fullOnNoToken : Bool :=
  !c.enableHierarchicalCache || !a.canRunList.isEmpty || !a.runningBatch.reqs.isEmpty

/-- The end of an iteration, once there is room for `req`: whether the loop goes on. -/
def tryAdd (req : Req) : Bool × PrefillAdder :=
  let t := o.trial req.rid
  if c.enableHicacheStorage && !t.prefetchDone then (true, a)
  else
    match a.addOneReq c req t.checks with
    | (.continueAdding, a) => (true, a)
    | (.noToken, a) => (false, a.setFull (a.fullOnNoToken c))
    | (.other, a) => (false, a)

/-- One iteration of the loop over the waiting queue: whether it goes on. -/
def visit (req : Req) : Option (Bool × PrefillAdder) :=
  let t := o.trial req.rid
  if c.enableLora && !t.canScheduleLora then some (true, a)
  else
    let a := a.setFull (a.isFull c t.availableRows)
    if a.runningBatch.batchIsFull then
      if c.enablePriorityPreemption then
        (a.preemptToSchedule c o.setOrder req t.remTotalTokens).map fun (preempted, a) =>
          if preempted then a.tryAdd c o req else (false, a)
      else some (false, a)
    else some (a.tryAdd c o req)

def visitAll : List Req → PrefillAdder → Option PrefillAdder
  | [], a => some a
  | req :: queue, a =>
    (a.visit c o req).bind fun (goOn, a) => if goOn then visitAll queue a else some a

end PrefillAdder

variable (running : ScheduleBatch)

/-- The running batch returned before any request is considered, if the pass ends there. -/
def skipPrefill : Option ScheduleBatch :=
  let noRow := decide (numAllocatableReqs c o.availableRows running.reqs.length 0 ≤ 0)
  if s.chunkedReq.isSome then none
  else if running.batchIsFull || s.waitingQueue.isEmpty then some running
  else if o.shouldDelay then some running
  else if noRow && !c.enablePriorityPreemption then some { running with batchIsFull := true }
  else none

/-- The adder with the chunked request, if there is one to continue, and what is left of it. -/
def startAdder : Option Req × PrefillAdder :=
  let a : PrefillAdder := ⟨running, [], [], none⟩
  match s.chunkedReq with
  | none => (none, a)
  | some req => a.addChunkedReq req o.addChunkedReq

/-- `assert self.chunked_req is None`, then the new chunked request takes its place. -/
def updateChunkedReq : Option Req → Option SchedulerState
  | none => some s
  | some req => if s.chunkedReq.isSome then none else some { s with chunkedReq := some req }

/-- Whether the running batch is merged into the new one. -/
def mixes (a : PrefillAdder) : Bool :=
  c.isMixedChunk && !a.runningBatch.reqs.isEmpty &&
    !(a.canRunList.any Req.returnLogprob || a.runningBatch.returnLogprob) &&
    !a.canRunList.any Req.hasInputEmbeds

/-- From the admitted requests to the new batch. -/
def finishPrefill (a : PrefillAdder) : Option PrefillPlan :=
  if a.canRunList.isEmpty then some ⟨s, none, a.runningBatch⟩
  else do
    let s := { s with waitingQueue := without a.canRunList s.waitingQueue }
    let s ← addRequestsToQueue c o a.preemptList s
    let s ← updateChunkedReq s a.newChunkedReq
    if mixes c a then
      let running := a.runningBatch.filterBatch
      some ⟨s, some (a.canRunList ++ running.reqs), ⟨[], running.batchIsFull, false⟩⟩
    else some ⟨s, some a.canRunList, a.runningBatch⟩

/-- The running batch when the pass begins: preemption and the SWA pool are tried afresh. -/
def resetFull : ScheduleBatch :=
  if c.enablePriorityPreemption || c.isHybridSwa then { running with batchIsFull := false }
  else running

/-- The pass from `calc_priority` on. -/
def schedulePrefill : Option PrefillPlan :=
  let s := { s with waitingQueue := o.calcPriority.apply s.waitingQueue }
  if c.testRetract.any fun bs => decide (bs < running.reqs.length) then some ⟨s, none, running⟩
  else
    let (chunkedReq, a) := startAdder o s running
    (a.visitAll c o s.waitingQueue).bind (finishPrefill c o { s with chunkedReq })

def getNewBatchPrefillRaw : Option PrefillPlan :=
  (addRequestsToQueue c o o.readyGrammarRequests s).bind fun s =>
    match skipPrefill c o s (resetFull c running) with
    | some running => some ⟨s, none, running⟩
    | none => schedulePrefill c o s (resetFull c running)

end SglangRuntime.Scheduling
