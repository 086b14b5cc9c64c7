import Mathlib.Data.List.Basic

/-!
# Memory cache — the events a cache publishes

`KVCacheEventRecorder` of `mem_cache/events.py`.  Storing a node enqueues one event for each page,
linked by parent hash; removing it enqueues one event.  An event that continues the last one in the
queue is merged into it.
-/

namespace SglangRuntime.KvEventRecorder

/-- `StorageMedium`. -/
inductive StorageMedium where
  | gpu | cpu | disk | external
deriving DecidableEq, Repr

def StorageMedium.value : StorageMedium → String
  | .gpu => "GPU"
  | .cpu => "CPU_PINNED"
  | .disk => "DISK"
  | .external => "EXTERNAL"

/-- `BlockStored`, with the salt of `BlockStoredWithMetadata`; the LoRA id is always absent. -/
structure BlockStored where
  blockHashes : List Int
  parentBlockHash : Option Int
  tokenIds : List Nat
  blockSize : Nat
  medium : StorageMedium
  cacheSalt : Option String
deriving DecidableEq, Repr

inductive Event where
  | blockStored (e : BlockStored)
  | blockRemoved (blockHashes : List Int) (medium : StorageMedium)
  | allBlocksCleared
deriving DecidableEq, Repr

/-- What the recorder reads of a tree node: its pages with their event hashes, and the hash its first
page links back to. -/
structure EventNode where
  pages : List (Int × List Nat)
  parentBlockHash : Option Int
  cacheSalt : Option String

/-- An event merged into the one before it, if it continues it. -/
def coalesce : Event → Event → Option Event
  | .blockRemoved tail medium, .blockRemoved hashes medium' =>
    if medium = medium' then some (.blockRemoved (tail ++ hashes) medium) else none
  | .blockStored tail, .blockStored e =>
    if tail.medium = e.medium ∧ tail.blockSize = e.blockSize ∧ tail.cacheSalt = e.cacheSalt ∧
        tail.blockHashes ≠ [] ∧ e.parentBlockHash = tail.blockHashes.getLast? then
      some (.blockStored { tail with
        blockHashes := tail.blockHashes ++ e.blockHashes
        tokenIds := tail.tokenIds ++ e.tokenIds })
    else none
  | _, _ => none

variable (queue : List Event)

def enqueue (event : Event) : List Event :=
  match queue.getLast?.bind fun tail => coalesce tail event with
  | some merged => queue.dropLast ++ [merged]
  | none => queue ++ [event]

/-- The loop of `record_store` over the pages. -/
def storePages (medium : StorageMedium) (cacheSalt : Option String) :
    List (Int × List Nat) → Option Int → List Event → List Event
  | [], _, queue => queue
  | (blockHash, tokens) :: pages, parentBlockHash, queue =>
    storePages medium cacheSalt pages (some blockHash)
      (enqueue queue
        (.blockStored ⟨[blockHash], parentBlockHash, tokens, tokens.length, medium, cacheSalt⟩))

variable (node : EventNode)

variable (medium : StorageMedium)

def recordStore : List Event :=
  storePages medium node.cacheSalt node.pages node.parentBlockHash queue

def recordRemove : List Event :=
  if node.pages = [] then queue else enqueue queue (.blockRemoved (node.pages.map Prod.fst) medium)

def recordAllCleared : List Event := enqueue queue .allBlocksCleared

end SglangRuntime.KvEventRecorder
