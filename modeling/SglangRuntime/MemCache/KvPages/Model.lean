import SglangRuntime.MemCache.RadixCache.Refinement
import SglangRuntime.MemCache.PagedAllocator

/-!
# Memory cache — requests over `RadixCache` and the page allocator

What requests do with the two: `match_prefix` and the lock at scheduling, the allocations into the
request's row of `req_to_token`, `cache_unfinished_req`, `release_kv_cache` with `cache_finished_req`
and the release of the over-allocated tail, and `evict`.

A row is kept up to `kv_allocated_len`.  The tokens are `origin_input_ids + output_ids`; the fill ids
of a request are a prefix of them.  A result of `none` is an exception.
-/

namespace SglangRuntime.KvPages

open Foundation

structure ServerConfig where
  cache : CacheInitParams
  numPages : Nat
  needSort : Bool
  disableFinishedInsert : Bool
  stripThinkingCache : Bool
  /-- a speculative algorithm is configured -/
  speculative : Bool

variable (g : ServerConfig)

/-- The allocator has the page size of the cache. -/
def ServerConfig.pool : PoolConfig :=
  ⟨g.cache.pageSize, g.cache.pageSize_pos, g.numPages, g.needSort⟩

structure Req where
  originInputIds : List Int
  outputIds : List Int
  extraKey : Option String
  cacheSalt : Option String
  priority : Option Int
  skipRadixCacheInsert : Bool
  reasoningTokens : Nat
  kvCommittedLen : Nat
  /-- `req_to_token[req_pool_idx, :kv_allocated_len]` -/
  row : List Slot
  cacheProtectedLen : Nat
  lastNode : NodeId

/-- `l[i : i + len(xs)] = xs`. -/
def overwrite (l : List Slot) (i : Nat) (xs : List Slot) : List Slot :=
  l.take i ++ xs ++ l.drop (i + xs.length)

namespace Req

variable (r : Req)

def tokens : List Int := r.originInputIds ++ r.outputIds

def effectiveKvCommittedLen : Nat :=
  if g.stripThinkingCache && decide (0 < r.reasoningTokens) then
    min r.kvCommittedLen r.originInputIds.length
  else r.kvCommittedLen

/-- The key under which both `cache_…_req` cache the first `n` tokens. -/
def radixKey (n : Nat) : RadixKey :=
  RadixKey.pageAligned ⟨r.tokens.take n, r.extraKey, r.cacheSalt, g.cache.isEagle, none⟩
    g.cache.pageSize

/-- The part of the row that belongs to the request. -/
def privateRow : List Slot := r.row.drop r.cacheProtectedLen

end Req

variable (cache : RadixCache)

/-- The call of `insert`.  Callers have a slot for every unit of the key; without, there is no
result. -/
def insertRow (key : RadixKey) (values : List Slot)
    (priority : Option Int) (chunked : Bool) (now : Int) : Option (RadixCache × Nat) :=
  if h : (key.maybeToBigramView g.cache.isEagle).len ≤ values.length then
    (cache.insert g.cache
      { key := key, value := some values, priority := some (priority.getD 0), chunked := chunked
        value_long := fun v hv => by cases hv; exact h } now).map fun r => (r.1, r.2.1)
  else none

variable (allocator : PagedAllocator)

/-- `cache_finished_req`. -/
def cacheFinishedReq (r : Req)
    (isInsert : Bool) (kvLenToHandle : Nat) (now : Int) : Option (RadixCache × PagedAllocator) :=
  let isInsert := isInsert && !g.disableFinishedInsert
  if g.cache.disable then
    some (cache, allocator.freeSegment g.pool (slice r.row r.cacheProtectedLen kvLenToHandle)
      r.cacheProtectedLen)
  else
    let tokenIds := r.tokens.take kvLenToHandle
    let kvIndices := r.row.take tokenIds.length
    let key := r.radixKey g kvLenToHandle
    let values := kvIndices.take key.len
    (if isInsert then insertRow g cache key values r.priority false now
      else some (cache, key.len)).map fun (cache, freedEnd) =>
      ((cache.decLockRef g.cache r.lastNode).1,
        allocator.freeSegments g.pool
          [(slice kvIndices r.cacheProtectedLen freedEnd, r.cacheProtectedLen),
            (kvIndices.drop key.len, key.len)])

/-- `cache_unfinished_req`, of the fill ids up to `fillEnd`. -/
def cacheUnfinishedReq (r : Req) (fillEnd : Nat) (chunked : Bool) (now now' : Int) :
    Option (RadixCache × PagedAllocator × Req) :=
  if g.cache.disable then some (cache, allocator, r)
  else do
    let tokenIds := r.tokens.take fillEnd
    let kvIndices := r.row.take tokenIds.length
    let key := r.radixKey g fillEnd
    let values := kvIndices.take key.len
    let (cache, newPrefixLen) ← insertRow g cache key values r.priority chunked now
    let allocator := allocator.freeSegment g.pool
      (slice kvIndices r.cacheProtectedLen newPrefixLen) r.cacheProtectedLen
    let (cache, newIndices, newLastNode) ← cache.matchPrefix g.cache key now'
    if newIndices.length = key.len then
      let cache := (cache.decLockRef g.cache r.lastNode).1
      let cache := (cache.incLockRef g.cache newLastNode).1
      return (cache, allocator, { r with
        row := overwrite r.row r.cacheProtectedLen (newIndices.drop r.cacheProtectedLen)
        cacheProtectedLen := newIndices.length
        lastNode := newLastNode })
    else none

/-- `_release_overallocated_kv_indices`. -/
def releaseOverallocatedKvIndices (r : Req) (startP endP : Nat) : Option PagedAllocator :=
  if !g.speculative && !g.stripThinkingCache && startP != endP then none
  else
    -- `ceil_align`
    let startP := if 1 < g.cache.pageSize then numPagesOf g.cache.pageSize startP * g.cache.pageSize
      else startP
    if startP < endP then
      some (allocator.freeSegment g.pool (slice r.row startP endP) startP)
    else some allocator

/-- `release_kv_cache`, of a request with a row. -/
def releaseKvCache (r : Req)
    (isInsert : Bool) (now : Int) : Option (RadixCache × PagedAllocator) := do
  let effectiveLen := r.effectiveKvCommittedLen g
  let (cache, allocator) ← cacheFinishedReq g cache allocator r
    (isInsert && !r.skipRadixCacheInsert) effectiveLen now
  let allocator ← releaseOverallocatedKvIndices g allocator r effectiveLen r.row.length
  return (cache, allocator)

/-- The `while` loop of `evict`, with the pages that it frees. -/
def evictLoop (g : ServerConfig) (numTokens : Nat) (rank : NodeId → Nat) :
    Nat → RadixCache → PagedAllocator → List NodeId → Nat → Option (RadixCache × PagedAllocator)
  | 0, _, _, _, _ => none
  | fuel + 1, cache, allocator, heap, numEvicted =>
    if numEvicted < numTokens then
      match cache.heapMin g.cache rank heap with
      | none => some (cache, allocator)
      | some x => do
        let v ← cache.valueOf x
        let allocator := allocator.freeSegment g.pool v 0
        let parent ← cache.tree.parentOf x
        let cache ← cache.deleteLeaf g.cache x
        let heap := heap.erase x ++
          (if (cache.tree.childIds parent).isEmpty && cache.lockRefOf parent == 0 then [parent]
            else [])
        evictLoop g numTokens rank fuel cache allocator heap (numEvicted + v.length)
    else some (cache, allocator)

/-- `evict`. -/
def evict (numTokens : Nat) (rank : NodeId → Nat) : Option (RadixCache × PagedAllocator) :=
  if g.cache.disable then some (cache, allocator)
  else
    let leaves := (List.range cache.tree.counter).filter (· ∈ cache.evictableLeaves)
    evictLoop g numTokens rank (cache.tree.counter + 1) cache allocator leaves 0

/-! ### The system -/

/-- The cache, the allocator and the requests that have a row. -/
structure State where
  cache : RadixCache
  allocator : PagedAllocator
  reqs : Multiset Req

def State.init : State := ⟨RadixCache.reset, .clear g.pool, 0⟩

/-- The last slot of a row, as `last_loc`. -/
def lastLoc (row : List Slot) : Slot := row.getLast?.getD (-1)

/-- The number of units that `n` tokens make. -/
def numUnits (n : Nat) : Nat := if g.cache.isEagle then n - 1 else n

/-- The tree part of the row lies within what `release_kv_cache` hands to the tree. -/
def Req.Covered (r : Req) : Prop :=
  r.cacheProtectedLen ≤ numUnits g (r.effectiveKvCommittedLen g)

/-- One step.  `ok` restricts the requests that are released. -/
inductive Step (g : ServerConfig) (ok : Req → Prop) : State → State → Prop
  /-- a lookup without a lock, as the scheduling policies make -/
  | matchPrefix {cache cache' : RadixCache} {allocator : PagedAllocator} {reqs : Multiset Req}
      {vals : List Slot} {node : NodeId} (key : RadixKey) (now : Int)
      (h : cache.matchPrefix g.cache key now = some (cache', vals, node)) :
      Step g ok ⟨cache, allocator, reqs⟩ ⟨cache', allocator, reqs⟩
  /-- `init_next_round_input`, the lock that scheduling takes, and the prefix in the row; a request
  may have output from before a retraction -/
  | start {cache cache' : RadixCache} {allocator : PagedAllocator} {reqs : Multiset Req}
      {vals : List Slot} {node : NodeId} (r : Req) (limit : Option Nat) (now : Int)
      (h : cache.matchPrefix g.cache ⟨r.tokens, r.extraKey, r.cacheSalt, false, limit⟩ now =
        some (cache', vals, node)) :
      Step g ok ⟨cache, allocator, reqs⟩ ⟨(cache'.incLockRef g.cache node).1, allocator,
        { r with row := vals, cacheProtectedLen := vals.length, lastNode := node } ::ₘ reqs⟩
  /-- `alloc_for_extend` and `alloc_for_spec_decode`, to the given lengths -/
  | extend {cache : RadixCache} {allocator allocator' : PagedAllocator} {rest : Multiset Req}
      {outs : List (List Slot)} (batch : List (Req × Nat))
      (hlen : ∀ x ∈ batch, x.1.row.length ≤ x.2)
      (h : allocator.allocForExtend g.pool
        (batch.map fun x => ⟨x.1.row.length, x.2, lastLoc x.1.row⟩) = some (outs, allocator')) :
      Step g ok ⟨cache, allocator, ↑(batch.map Prod.fst) + rest⟩
        ⟨cache, allocator',
          ↑(List.zipWith (fun r out => { r with row := r.row ++ out }) (batch.map Prod.fst) outs) +
            rest⟩
  /-- `alloc_for_decode` -/
  | decode {cache : RadixCache} {allocator allocator' : PagedAllocator} {rest : Multiset Req}
      {out : List Slot} (batch : List Req)
      (h : allocator.allocForDecode g.pool
        (batch.map fun r => ⟨r.row.length + 1, lastLoc r.row⟩) = some (out, allocator')) :
      Step g ok ⟨cache, allocator, ↑batch + rest⟩
        ⟨cache, allocator',
          ↑(List.zipWith (fun r x => { r with row := r.row ++ [x] }) batch out) + rest⟩
  /-- a forward commits KV and appends output -/
  | progress {cache : RadixCache} {allocator : PagedAllocator} {rest : Multiset Req} (r : Req)
      (outputIds : List Int) (kvCommittedLen reasoningTokens : Nat) :
      Step g ok ⟨cache, allocator, r ::ₘ rest⟩ ⟨cache, allocator,
        { r with
          outputIds := r.outputIds ++ outputIds
          kvCommittedLen := kvCommittedLen
          reasoningTokens := reasoningTokens } ::ₘ rest⟩
  /-- `cache_unfinished_req`, after a forward over the fill ids -/
  | cacheUnfinished {cache cache' : RadixCache} {allocator allocator' : PagedAllocator}
      {rest : Multiset Req} {r r' : Req} (fillEnd : Nat) (chunked : Bool) (now now' : Int)
      (htok : fillEnd ≤ r.tokens.length) (hrow : fillEnd ≤ r.row.length)
      (hfill : r.cacheProtectedLen ≤ numUnits g fillEnd)
      (h : cacheUnfinishedReq g cache allocator r fillEnd chunked now now' =
        some (cache', allocator', r')) :
      Step g ok ⟨cache, allocator, r ::ₘ rest⟩ ⟨cache', allocator', r' ::ₘ rest⟩
  /-- `release_kv_cache`, at the end of a request or at a retraction -/
  | release {cache cache' : RadixCache} {allocator allocator' : PagedAllocator}
      {rest : Multiset Req} {r : Req} (isInsert : Bool) (now : Int) (hok : ok r)
      (htok : r.kvCommittedLen ≤ r.tokens.length) (hrow : r.kvCommittedLen ≤ r.row.length)
      (h : releaseKvCache g cache allocator r isInsert now = some (cache', allocator')) :
      Step g ok ⟨cache, allocator, r ::ₘ rest⟩ ⟨cache', allocator', rest⟩
  | evict {cache cache' : RadixCache} {allocator allocator' : PagedAllocator}
      {reqs : Multiset Req} (numTokens : Nat) (rank : NodeId → Nat)
      (h : KvPages.evict g cache allocator numTokens rank = some (cache', allocator')) :
      Step g ok ⟨cache, allocator, reqs⟩ ⟨cache', allocator', reqs⟩

/-- The states of the runs whose releases all satisfy `ok`. -/
inductive Run (g : ServerConfig) (ok : Req → Prop) : State → Prop
  | init : Run g ok (State.init g)
  | step {s s' : State} : Run g ok s → Step g ok s s' → Run g ok s'

/-! ### Who holds a page -/

/-- The pages of a list of slots. -/
def pagesIn (slots : List Slot) : List Int :=
  slots.map (· / (g.cache.pageSize : Int))

/-- How many places hold page `p`: its occurrences in the free and release lists, the tree nodes with
a slot of it, and the requests with a slot of it in their own part of the row. -/
def State.holders (st : State) (p : Int) : Nat :=
  st.allocator.count p +
    (st.cache.liveNodes.filter fun i => p ∈ pagesIn g ((st.cache.valueOf i).getD [])).card +
    st.reqs.countP fun r => p ∈ pagesIn g r.privateRow

/-- Every page of the pool is held by exactly one place, and nothing else is held. -/
def Conserved (st : State) : Prop :=
  ∀ p, st.holders g p = if 1 ≤ p ∧ p ≤ (g.numPages : Int) then 1 else 0

end SglangRuntime.KvPages
