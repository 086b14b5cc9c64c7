import SglangRuntime.Router.HashTree

/-!
# Router — the KV-event index as interleaved processes

`KvEventIndex` of `policies/kv_events/index.rs` with the registry of `subscriber.rs`: the pump, one
subscriber task for each rank of a worker, and the calls of `add_worker` and `remove_worker`.  Each
action is one atomic step, a critical section of one of the locks or an exchange on the channel.
The worker manager runs the calls for one worker one after the other, and those for different
workers at the same time, so there is a program counter for each URL.

`remove_worker` holds the lock of the cursors while it clears the ranks, and the pump takes it for
each access to a cursor.

Two things are kept for the statements only, and no step reads them: how often `remove_worker` has
returned for each worker, with which every queued event and every cursor is stamped, and whether
`add_worker` has been called since.
-/

namespace SglangRuntime.KvEvents

open Foundation Function

/-- What the index reads of an `EventConfig`. -/
structure EventConfig where
  portBase : Nat
  dpSize : Nat

/-- The ranks that are subscribed: those whose port fits a `u16`. -/
def EventConfig.dpRanks (cfg : EventConfig) : List Nat :=
  (List.range cfg.dpSize).filter fun rank => decide (cfg.portBase + rank ≤ 65535)

inductive WorkerEvent where
  | batch (worker : KvWorkerId) (seq : Int) (events : List KvCacheEvent)
  | publisherReset (worker : KvWorkerId)
deriving DecidableEq, Repr

def WorkerEvent.worker : WorkerEvent → KvWorkerId
  | .batch worker _ _ => worker
  | .publisherReset worker => worker

/-- Where `pump_loop` stands, with the stamp of the event it handles. -/
inductive PumpState where
  | idle
  | received (ev : WorkerEvent) (stamp : Nat)
  /-- past the check of the live set -/
  | checked (ev : WorkerEvent) (stamp : Nat)
  /-- past the check of the cursor, with the events still to apply -/
  | applying (worker : KvWorkerId) (seq : Int) (events : List KvCacheEvent) (stamp : Nat)
deriving DecidableEq

/-- The worker whose event is past the live check, with the stamp. -/
def PumpState.inFlight : PumpState → Option (KvWorkerId × Nat)
  | .idle => none
  | .received _ _ => none
  | .checked ev stamp => some (ev.worker, stamp)
  | .applying worker _ _ stamp => some (worker, stamp)

/-- The event received and not yet checked. -/
def PumpState.waiting : PumpState → List (WorkerEvent × Nat)
  | .received ev stamp => [(ev, stamp)]
  | _ => []

/-- Where the call for a worker stands, by the next thing it does. -/
inductive Call where
  | returned
  | markLive (ranks : List Nat)
  | register (ranks : List Nat)
  | subscribe (ranks : List Nat)
  | markDead (ranks : List Nat)
  | drainHandles (ranks : List Nat)
  | joinTasks (ranks : List Nat) (tasks : Finset KvWorkerId)
  | lockCursors (ranks : List Nat)
  | clear (ranks : List Nat)

/-- The ranks that a call works on. -/
def Call.ranks : Call → List Nat
  | .returned => []
  | .markLive ranks | .register ranks | .subscribe ranks | .markDead ranks | .drainHandles ranks
  | .joinTasks ranks _ | .lockCursors ranks | .clear ranks => ranks

/-- `EVENT_CHANNEL_BUFFER`. -/
def eventChannelBuffer : Nat := 1024

structure KvEventIndex where
  tree : TreeState
  /-- the last sequence number applied, with the stamp of its batch -/
  cursors : KvWorkerId → Option (Int × Nat)
  /-- who holds the lock of the cursors across steps -/
  cursorLock : Option String
  liveWorkers : Finset KvWorkerId
  workers : String → Option (List Nat)
  /-- the registry of subscriber tasks, and those that still run -/
  handles : Finset KvWorkerId
  running : Finset KvWorkerId
  channel : List (WorkerEvent × Nat)
  pump : PumpState
  calls : String → Call
  /-- how often `remove_worker` has returned -/
  removals : String → Nat
  /-- whether `add_worker` has been called since `remove_worker` last returned -/
  added : String → Bool

inductive Action where
  /-- `add_worker` starts; the configuration is absent when the worker does not publish, cannot be
  asked, or disagrees about the block size -/
  | addWorker (url : String) (cfg : Option EventConfig)
  | markLive (url : String)
  | register (url : String)
  | subscribe (url : String)
  | removeWorker (url : String)
  | markDead (url : String)
  | drainHandles (url : String)
  | joinTasks (url : String)
  | lockCursors (url : String)
  | clear (url : String) (ord : SetOrder)
  | unlock (url : String)
  | send (ev : WorkerEvent)
  | exit (worker : KvWorkerId)
  | receive
  | checkLive
  | resetCursor
  | checkCursor
  | applyEvent (ord : SetOrder)
  | commitCursor

namespace KvEventIndex

def new : KvEventIndex where
  tree := .new
  cursors _ := none
  cursorLock := none
  liveWorkers := ∅
  workers _ := none
  handles := ∅
  running := ∅
  channel := []
  pump := .idle
  calls _ := .returned
  removals _ := 0
  added _ := false

variable (url : String)

def idsOf (ranks : List Nat) : Finset KvWorkerId :=
  (ranks.map (KvWorkerId.mk url)).toFinset

variable (s : KvEventIndex)

def setCall (call : Call) : KvEventIndex :=
  { s with calls := update s.calls url call }

/-- `remove_worker` returns. -/
def removeReturned : KvEventIndex :=
  { s.setCall url .returned with
    removals := update s.removals url (s.removals url + 1)
    added := update s.added url false }

/-- A step of the call that runs for a worker. -/
def callStep : Action → Option KvEventIndex
  | .addWorker _ cfg =>
    match s.calls url with
    | .returned =>
      let s := { s with added := update s.added url true }
      match cfg.map EventConfig.dpRanks with
      | none => some s
      | some ranks => some (if ranks = [] then s else s.setCall url (.markLive ranks))
    | _ => none
  | .markLive _ =>
    match s.calls url with
    | .markLive ranks =>
      some ({ s with liveWorkers := s.liveWorkers ∪ idsOf url ranks }.setCall url (.register ranks))
    | _ => none
  | .register _ =>
    match s.calls url with
    | .register ranks =>
      some ({ s with workers := update s.workers url (some ranks) }.setCall url
        (.subscribe ranks))
    | _ => none
  | .subscribe _ =>
    match s.calls url with
    | .subscribe ranks =>
      -- a rank that is registered keeps its task
      let tasks := idsOf url ranks \ s.handles
      some ({ s with handles := s.handles ∪ tasks, running := s.running ∪ tasks }.setCall url .returned)
    | _ => none
  | .removeWorker _ =>
    match s.calls url with
    | .returned =>
      match s.workers url with
      | none => some (s.removeReturned url)
      | some ranks =>
        some ({ s with workers := update s.workers url none }.setCall url (.markDead ranks))
    | _ => none
  | .markDead _ =>
    match s.calls url with
    | .markDead ranks =>
      some ({ s with liveWorkers := s.liveWorkers \ idsOf url ranks }.setCall url
        (.drainHandles ranks))
    | _ => none
  | .drainHandles _ =>
    match s.calls url with
    | .drainHandles ranks =>
      let tasks := s.handles.filter fun w => w.url = url
      some ({ s with handles := s.handles \ tasks }.setCall url (.joinTasks ranks tasks))
    | _ => none
  | .joinTasks _ =>
    match s.calls url with
    | .joinTasks ranks tasks =>
      if ∀ w ∈ tasks, w ∉ s.running then some (s.setCall url (.lockCursors ranks)) else none
    | _ => none
  | .lockCursors _ =>
    match s.calls url with
    | .lockCursors ranks =>
      if s.cursorLock = none then
        some ({ s with cursorLock := some url }.setCall url (.clear ranks))
      else none
    | _ => none
  | .clear _ ord =>
    match s.calls url with
    | .clear (rank :: ranks) =>
      some ({ s with
        tree := s.tree.clearWorker ord ⟨url, rank⟩
        cursors := update s.cursors ⟨url, rank⟩ none }.setCall url (.clear ranks))
    | _ => none
  | .unlock _ =>
    match s.calls url with
    | .clear [] => some ({ s with cursorLock := none }.removeReturned url)
    | _ => none
  | _ => none

/-- A step of `pump_loop`. -/
def pumpStep : Action → Option KvEventIndex
  | .receive =>
    match s.pump, s.channel with
    | .idle, (ev, stamp) :: channel => some { s with pump := .received ev stamp, channel := channel }
    | _, _ => none
  | .checkLive =>
    match s.pump with
    | .received ev stamp =>
      some { s with pump := if ev.worker ∈ s.liveWorkers then .checked ev stamp else .idle }
    | _ => none
  | .resetCursor =>
    match s.pump with
    | .checked (.publisherReset worker) _ =>
      if s.cursorLock = none then
        some { s with cursors := update s.cursors worker none, pump := .idle }
      else none
    | _ => none
  | .checkCursor =>
    match s.pump with
    | .checked (.batch worker seq events) stamp =>
      if s.cursorLock = none then
        -- a batch that is not newer than the cursor is skipped
        some { s with pump :=
          if (s.cursors worker).any (fun cursor => decide (seq ≤ cursor.1)) then .idle
          else .applying worker seq events stamp }
      else none
    | _ => none
  | .applyEvent ord =>
    match s.pump with
    | .applying worker seq (event :: events) stamp =>
      some { s with
        tree := s.tree.apply ord worker event
        pump := .applying worker seq events stamp }
    | _ => none
  | .commitCursor =>
    match s.pump with
    | .applying worker seq [] stamp =>
      if s.cursorLock = none then
        some { s with
          cursors := update s.cursors worker (some (seq, stamp))
          pump := .idle }
      else none
    | _ => none
  | _ => none

/-- A step of a subscriber task: it queues an event, or ends. -/
def taskStep : Action → Option KvEventIndex
  | .send ev =>
    if ev.worker ∈ s.running ∧ s.channel.length < eventChannelBuffer then
      some { s with channel := s.channel ++ [(ev, s.removals ev.worker.url)] }
    else none
  | .exit worker => some { s with running := s.running.erase worker }
  | _ => none

def step (a : Action) : Option KvEventIndex :=
  match a with
  | .addWorker url _ | .markLive url | .register url | .subscribe url | .removeWorker url
  | .markDead url | .drainHandles url | .joinTasks url | .lockCursors url | .clear url _
  | .unlock url => s.callStep url a
  | .send _ | .exit _ => s.taskStep a
  | _ => s.pumpStep a

def run (s : KvEventIndex) : List Action → Option KvEventIndex
  | [] => some s
  | a :: as => (s.step a).bind fun s => s.run as

end KvEventIndex

end SglangRuntime.KvEvents
