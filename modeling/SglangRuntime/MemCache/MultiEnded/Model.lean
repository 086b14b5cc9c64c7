import SglangRuntime.Foundation.InverseTables
import Mathlib.Data.List.Sort
import Mathlib.Data.List.Dedup
import Mathlib.Data.Finset.Basic

/-!
# Memory cache — `MultiEndedAllocator`

The allocator of one sub-pool of a unified buffer, in lazy-compaction mode.  The sub-pool grows from
its anchored end (`min_page_index` or the top of the buffer) towards the peer; `watermark` is its
frontier.  Freed pages stay behind as holes in `_free_phys_pages`; a flush moves live pages from the
frontier into holes and gives the vacated pages back, at once or, while a forward may still read
them, through `_pending_reuse`.

Tables are functions from page ids; an entry of `-1` is `none`.  What events answer when they are
queried is an input (`Timing`).  A result of `none` is an exception.
-/

namespace SglangRuntime.MultiEnded

open Foundation

inductive GrowDirection where
  | up | down
deriving DecidableEq, Repr

structure AllocConfig where
  growDirection : GrowDirection
  numPages : Nat
  minPageIndex : Nat
  pageSize : Nat
  entryBytesPerPage : Nat
  totalBytes : Nat
  isIdOwner : Bool
  needSort : Bool
  /-- `_SORT_FREE_LIST_AFTER_MERGE` -/
  sortFreeListAfterMerge : Bool
  /-- `_lazy_max_moves_per_call` -/
  lazyMaxMovesPerCall : Nat
  /-- page 0 is the padding sink, so it is reserved -/
  minPageIndex_pos : 0 < minPageIndex
  numPages_pos : 0 < numPages
  pageSize_pos : 0 < pageSize

/-- A `torch.cuda.Event`. -/
abbrev Event := Nat

structure MultiEndedAllocator where
  /-- `watermark_physical` -/
  watermark : Nat
  virtualToPhysical : Nat → Option Nat
  physicalToVirtual : Nat → Option Nat
  freeVirtualIds : List Nat
  freePhysPages : List Nat
  /-- the dictionary, in insertion order -/
  pendingReuse : List (Event × List Nat)
  pendingReusePagesCpu : Finset Nat
  livePageCount : Int
  isNotInFreeGroup : Bool
  freeGroup : List Nat
  latestForwardDoneEvent : Option Event
  /-- the event and the virtual `out_cache_loc` -/
  inflightForward : Option (Event × List Nat)

/-- What the environment answers during a flush. -/
structure Timing where
  /-- `disagg_move_gate`, or that there is none -/
  moveGate : Bool
  /-- `event.query()` when the pending entries are drained -/
  firedAtDrain : Event → Bool
  /-- `event.query()` when the write set is materialised -/
  firedAtWalk : Event → Bool
  /-- `event.query()` when the moves are committed -/
  firedAtCommit : Event → Bool

/-! ### The band of a sub-pool -/

namespace AllocConfig

variable (c : AllocConfig)

/-- The watermark of an empty sub-pool. -/
def startWatermark : Nat :=
  match c.growDirection with
  | .up => c.minPageIndex
  | .down => c.numPages - 1

/-- The physical pages between the anchored end and the watermark. -/
def InBand (watermark p : Nat) : Prop :=
  match c.growDirection with
  | .up => c.minPageIndex ≤ p ∧ p < watermark
  | .down => watermark < p ∧ p < c.numPages

instance (watermark p : Nat) : Decidable (c.InBand watermark p) := by
  unfold InBand; cases c.growDirection <;> infer_instance

variable (watermark : Nat)

/-- `_allocated_pages`. -/
def allocatedPages : Nat :=
  match c.growDirection with
  | .up => watermark - c.minPageIndex
  | .down => c.numPages - 1 - watermark

/-- The page of the band next to the watermark. -/
def edge : Nat :=
  match c.growDirection with
  | .up => watermark - 1
  | .down => watermark + 1

/-- The watermark `n` pages closer to the anchored end. -/
def retreat (n : Nat) : Nat :=
  match c.growDirection with
  | .up => watermark - n
  | .down => watermark + n

/-- The next page towards the anchored end. -/
def inward (p : Nat) : Nat :=
  match c.growDirection with
  | .up => p - 1
  | .down => p + 1

/-- `p` is farther from the anchored end than `q`. -/
def Outer (p q : Nat) : Prop :=
  match c.growDirection with
  | .up => q < p
  | .down => p < q

instance (p q : Nat) : Decidable (c.Outer p q) := by
  unfold Outer; cases c.growDirection <;> infer_instance

/-- A list in ascending order, from the anchored end to the frontier. -/
def outward (l : List Nat) : List Nat :=
  match c.growDirection with
  | .up => l
  | .down => l.reverse

/-- The number of pages from `p` to the anchored end. -/
def pagesFrom (p : Nat) : Nat :=
  match c.growDirection with
  | .up => p + 1 - c.minPageIndex
  | .down => c.numPages - p

/-- `_byte_high_frontier`. -/
def byteHighFrontier : Nat :=
  match c.growDirection with
  | .up => watermark * c.entryBytesPerPage
  | .down => c.numPages * c.entryBytesPerPage

/-- `_byte_low_frontier`. -/
def byteLowFrontier : Nat :=
  match c.growDirection with
  | .up => c.minPageIndex * c.entryBytesPerPage
  | .down => (watermark + 1) * c.entryBytesPerPage

end AllocConfig

/-- `sort` where the free list is kept sorted. -/
def mergeSorted (c : AllocConfig) (l : List Nat) : List Nat :=
  if c.sortFreeListAfterMerge then l.insertionSort (· ≤ ·) else l

/-- The bound peer. -/
abbrev Peer := Option (AllocConfig × MultiEndedAllocator)

namespace MultiEndedAllocator

variable (c : AllocConfig)

/-- `clear`: page 0 is bound to page 0, and every other id is free. -/
def clear : MultiEndedAllocator where
  watermark := c.startWatermark
  virtualToPhysical v := if v = 0 then some 0 else none
  physicalToVirtual p := if p = 0 then some 0 else none
  freeVirtualIds :=
    if c.isIdOwner then List.range' c.minPageIndex (c.numPages - c.minPageIndex) else []
  freePhysPages := []
  pendingReuse := []
  pendingReusePagesCpu := ∅
  livePageCount := 0
  isNotInFreeGroup := true
  freeGroup := []
  latestForwardDoneEvent := none
  inflightForward := none

/-! ### Capacity -/

variable (s : MultiEndedAllocator)

variable (peer : Peer)

/-- `_current_gap_bytes`. -/
def currentGapBytes : Nat :=
  match c.growDirection with
  | .up =>
    (match peer with
      | some (pc, p) => pc.byteLowFrontier p.watermark
      | none => c.totalBytes) - c.byteHighFrontier s.watermark
  | .down =>
    c.byteLowFrontier s.watermark -
      (match peer with
        | some (pc, p) => pc.byteHighFrontier p.watermark
        | none => 0)

/-- `available_size`, in tokens. -/
def availableSize : Nat :=
  (min (s.currentGapBytes c peer / c.entryBytesPerPage)
      (c.numPages - c.minPageIndex - c.allocatedPages s.watermark) +
    s.freePhysPages.length) * c.pageSize

/-! ### Taking and binding physical pages -/

/-- `_extend_watermark`, or `none` where it returns `False`. -/
def extendWatermark (n : Nat) : Option MultiEndedAllocator :=
  match c.growDirection with
  | .up =>
    let newWm := s.watermark + n
    if c.numPages < newWm then none
    else if peer.any fun (pc, p) =>
        decide (pc.byteLowFrontier p.watermark / c.entryBytesPerPage < newWm) then none
    else some { s with watermark := newWm }
  | .down =>
    if s.watermark + 1 < c.minPageIndex + n then none
    else
      let newWm := s.watermark - n
      if peer.any fun (pc, p) =>
          decide (newWm + 1 < pc.byteHighFrontier p.watermark / c.entryBytesPerPage) then none
      else some { s with watermark := newWm }

/-- The `n` pages of an extension that has been applied, ascending. -/
def extensionPages (n : Nat) : List Nat :=
  match c.growDirection with
  | .up => List.range' (s.watermark - n) n
  | .down => List.range' (s.watermark + 1) n

/-- The `n` holes that `take_physical` takes, and those that are left. -/
def takeHoles (free : List Nat) (n : Nat) : List Nat × List Nat :=
  if c.sortFreeListAfterMerge && c.growDirection == .down then
    ((free.drop (free.length - n)).reverse, free.take (free.length - n))
  else (free.take n, free.drop n)

/-- `take_physical`, for a number of pages: holes first, then an extension. -/
def takePhysical (numPages : Nat) : Option (List Nat × MultiEndedAllocator) :=
  let nDrain := min numPages s.freePhysPages.length
  let needMore := numPages - nDrain
  (if needMore = 0 then some s else s.extendWatermark c peer needMore).map fun s =>
    let taken := takeHoles c s.freePhysPages nDrain
    let extended := s.extensionPages c needMore
    -- a mixed grant of a downward sub-pool lists the extension from the top
    let extended := if c.growDirection = .down ∧ nDrain ≠ 0 then extended.reverse else extended
    (taken.1 ++ extended,
      { s with freePhysPages := taken.2, livePageCount := s.livePageCount + numPages })

/-- `bind`. -/
def bind (virtualIds physicalIds : List Nat) : MultiEndedAllocator :=
  { s with
    virtualToPhysical := scatter s.virtualToPhysical virtualIds physicalIds
    physicalToVirtual := scatter s.physicalToVirtual physicalIds virtualIds }

/-- `_alloc_bind_fast_or_slow`, or `none` on a shortfall. -/
def allocBindFastOrSlow (vPages : List Nat) (n : Nat) : Option MultiEndedAllocator :=
  if n = 0 then some s
  else if s.freePhysPages = [] then
    (s.extendWatermark c peer n).map fun s =>
      { s with livePageCount := s.livePageCount + n }.bind vPages (s.extensionPages c n)
  else
    (s.takePhysical c peer n).map fun (physPages, s) => s.bind vPages physPages

/-! ### Flushing -/

variable (fired : Event → Bool)

/-- `_drain_pending_reuse`. -/
def drainPendingReuse (urgent : Bool) : MultiEndedAllocator :=
  let ready := s.pendingReuse.filter fun e => fired e.1 || urgent
  if ready = [] then s
  else
    { s with
      pendingReuse := s.pendingReuse.filter fun e => !(fired e.1 || urgent)
      pendingReusePagesCpu := s.pendingReusePagesCpu \ (ready.flatMap Prod.snd).toFinset
      freePhysPages := mergeSorted c (s.freePhysPages ++ ready.flatMap Prod.snd) }

/-- The loop of `_absorb_boundary_holes` over the holes, those next to the watermark first. -/
def absorbFrom (watermark : Nat) : List Nat → Nat × List Nat
  | [] => (watermark, [])
  | h :: hs =>
    if h = c.edge watermark then absorbFrom (c.retreat watermark 1) hs else (watermark, h :: hs)

/-- `_absorb_boundary_holes`, of a sorted free list. -/
def absorbBoundaryHoles : MultiEndedAllocator :=
  let r := absorbFrom c s.watermark (c.outward s.freePhysPages).reverse
  { s with watermark := r.1, freePhysPages := c.outward r.2.reverse }

/-- `_materialize_inflight_write_set`: the pages the forward in flight writes, if it still does. -/
def inflightWriteSet : List Nat :=
  match s.inflightForward with
  | none => []
  | some (e, oclv) =>
    if fired e then []
    -- a tombstone reads page 0, the padding sink
    else oclv.map fun t => (s.virtualToPhysical (t / c.pageSize)).getD 0

/-- The forward slot is dropped once its event has fired. -/
def dropFired : MultiEndedAllocator :=
  { s with inflightForward := s.inflightForward.filter fun f => !fired f.1 }

/-- The walk of `_topmost_survivor` over the `k` pages from `p` inwards.  `holes` are the holes not
yet passed, the outermost first. -/
def survivorFrom (pending : Finset Nat) : Nat → Nat → List Nat → Option Nat × List Nat
  | 0, _, holes => (none, holes)
  | k + 1, p, holes =>
    let holes := holes.dropWhile fun h => decide (c.Outer h p)
    if holes.head? = some p then survivorFrom pending k (c.inward p) holes.tail
    else if p ∈ pending then survivorFrom pending k (c.inward p) holes
    else (some p, holes)

/-- `_topmost_survivor`. -/
def topmostSurvivor (startHint : Option Nat) (holes : List Nat) : Option Nat × List Nat :=
  let edge := c.edge s.watermark
  let p := match startHint with
    | none => edge
    | some h => if c.Outer h edge then edge else h
  survivorFrom c s.pendingReusePagesCpu (c.pagesFrom p) p holes

/-- The loop of `_flush`: the moves, as pairs of a source and a destination.  `dsts` are the holes
not yet consumed, the innermost first. -/
def walk (s : MultiEndedAllocator) (writeSet : List Nat) (moveCap : Option Nat) :
    List Nat → Option Nat → List Nat → Nat → List (Nat × Nat)
  | [], _, _, _ => []
  | dst :: dsts, cursor, holes, nMoves =>
    match s.topmostSurvivor c cursor holes with
    | (none, _) => []
    | (some src, holes) =>
      if src ∈ writeSet then []
      else if c.Outer dst src then []
      else
        (src, dst) ::
          if moveCap.any fun cap => decide (cap ≤ nMoves + 1) then []
          else walk s writeSet moveCap dsts (some (c.inward src)) holes (nMoves + 1)

/-- `self._pending_reuse[event] = pages`: an entry under the same key is replaced. -/
def setPending (event : Event) (pages : List Nat) :
    List (Event × List Nat) → List (Event × List Nat)
  | [] => [(event, pages)]
  | e :: es => if e.1 = event then (event, pages) :: es else e :: setPending event pages es

/-- The remap of `_commit_move_batch`. -/
def remap (srcs dsts vs : List Nat) : MultiEndedAllocator :=
  { s with
    virtualToPhysical := scatter s.virtualToPhysical vs dsts
    physicalToVirtual := wipe (scatter s.physicalToVirtual dsts vs) srcs }

/-- `_commit_move_batch`: the allocator, and the sources that may be reused at once. -/
def commitMoveBatch (moves : List (Nat × Nat)) (latest : Option Event)
    (fired : Event → Bool) : Option (MultiEndedAllocator × List Nat) :=
  if moves = [] then some (s, [])
  else
    let srcs := moves.map Prod.fst
    (gather s.physicalToVirtual srcs).map fun vs =>
      let s := s.remap srcs (moves.map Prod.snd) vs
      match latest.filter fun e => !fired e with
      | none => (s, srcs)
      | some e =>
        ({ s with
            pendingReuse := setPending e srcs s.pendingReuse
            pendingReusePagesCpu := s.pendingReusePagesCpu ∪ srcs.toFinset }, [])

/-- The exit of an urgent pass: the watermark retreats past all holes. -/
def fullPack (numHoles : Nat) : MultiEndedAllocator :=
  { s with watermark := c.retreat s.watermark numHoles, freePhysPages := [] }

/-- The exit of a partial pass: the consumed holes leave the list, and the sources that may be
reused join it. -/
def partialPack (numMoves : Nat) (released : List Nat) : MultiEndedAllocator :=
  let rest := c.outward ((c.outward s.freePhysPages).drop numMoves)
  { s with freePhysPages := if released = [] then rest else mergeSorted c (rest ++ released) }

variable (timing : Timing)

/-- The first half of `_flush`: drain, sort, absorb. -/
def prepareFlush (urgent : Bool) : MultiEndedAllocator :=
  let s := s.drainPendingReuse c timing.firedAtDrain urgent
  absorbBoundaryHoles c { s with freePhysPages := s.freePhysPages.insertionSort (· ≤ ·) }

/-- The moves of a pass, from the state `prepareFlush` leaves. -/
def flushMoves (urgent : Bool) : List (Nat × Nat) :=
  let holes := c.outward s.freePhysPages
  -- an urgent pass with holes has waited for the forward, so nothing is being written
  let writeSet := if urgent then [] else s.inflightWriteSet c timing.firedAtWalk
  let moveCap := if urgent then none else some c.lazyMaxMovesPerCall
  s.walk c writeSet moveCap holes none holes.reverse 0

/-- `_flush`. -/
def flush (urgent : Bool) : Option MultiEndedAllocator :=
  if !timing.moveGate then some s
  else
    let s := s.prepareFlush c timing urgent
    let moves := s.flushMoves c timing urgent
    if urgent && s.freePhysPages ≠ [] then
      -- `_settle_inflight_forward`
      let s' := if s.latestForwardDoneEvent.isSome then { s with inflightForward := none } else s
      (s'.commitMoveBatch moves none timing.firedAtCommit).map fun (s', _) =>
        s'.fullPack c s.freePhysPages.length
    else
      let reached := s.freePhysPages ≠ [] ∧
        (s.topmostSurvivor c none (c.outward s.freePhysPages).reverse).1.isSome
      let s' := if reached then s.dropFired timing.firedAtWalk else s
      (s'.commitMoveBatch moves s'.latestForwardDoneEvent timing.firedAtCommit).map
        fun (s', released) => s'.partialPack c moves.length released

/-- `flush_opportunistic`. -/
def flushOpportunistic : Option MultiEndedAllocator :=
  if s.freePhysPages = [] ∧ s.pendingReuse = [] then some s else s.flush c timing false

/-! ### Allocation -/

/-- The capacity check of `alloc`, `alloc_extend` and `alloc_decode`, with one urgent flush of the
peer on a shortfall. -/
def ensureRoom (needTokens : Nat) : Option (Bool × Peer) :=
  if needTokens ≤ s.availableSize c peer then some (true, peer)
  else
    match peer with
    | none => some (false, none)
    | some (pc, p) =>
      (p.flush pc timing true).map fun p =>
        (decide (needTokens ≤ s.availableSize c (some (pc, p))), some (pc, p))

/-- `alloc`: the virtual tokens, or `none` on a shortfall. -/
def alloc (needSize : Nat) : Option (Option (List Nat) × MultiEndedAllocator × Peer) :=
  if !c.isIdOwner then none
  else if needSize = 0 then some (some [], s, peer)
  else if needSize % c.pageSize ≠ 0 then none
  else
    (s.ensureRoom c peer timing needSize).map fun (room, peer) =>
      if room then
        let numPages := needSize / c.pageSize
        let vPages := s.freeVirtualIds.take numPages
        match { s with freeVirtualIds := s.freeVirtualIds.drop numPages }.allocBindFastOrSlow c peer
            vPages numPages with
        | none => (none, s, peer)
        | some s' =>
          (some (vPages.flatMap fun v => (List.range c.pageSize).map (v * c.pageSize + ·)), s', peer)
      else (none, s, peer)

variable (numNewPages : Nat)

/-- The common part of `alloc_extend` and `alloc_decode`: bind the virtual pages the kernel
consumes.  `lookAhead` is the number of pages above which a sorting allocator calls
`merge_and_sort_free`, which has no lists to merge here and raises. -/
def allocPaged (lookAhead : Nat) : Option (Bool × MultiEndedAllocator × Peer) :=
  if !c.isIdOwner then none
  else if s.freeVirtualIds.length < numNewPages then some (false, s, peer)
  else
    (s.ensureRoom c peer timing (numNewPages * c.pageSize)).bind fun (room, peer) =>
      if !room then some (false, s, peer)
      else if c.needSort && decide (s.freeVirtualIds.length < lookAhead) then none
      else
        match s.allocBindFastOrSlow c peer (s.freeVirtualIds.take numNewPages) numNewPages with
        | none => some (false, s, peer)
        | some s' =>
          some (true, { s' with freeVirtualIds := s.freeVirtualIds.drop numNewPages }, peer)

def allocExtend
    (extendNumTokens bs : Nat) : Option (Bool × MultiEndedAllocator × Peer) :=
  s.allocPaged c peer timing numNewPages (extendNumTokens / c.pageSize + bs + 1)

def allocDecode (bs : Nat) : Option (Bool × MultiEndedAllocator × Peer) :=
  s.allocPaged c peer timing numNewPages bs

/-- `alloc_with_virtual`: a shortfall is an assertion failure. -/
def allocWithVirtual (virtualPages : List Nat) : Option MultiEndedAllocator :=
  if virtualPages = [] then some s
  else s.allocBindFastOrSlow c peer virtualPages virtualPages.length

/-! ### Freeing -/

/-- The virtual pages of a list of tokens. -/
def tokenPages (tokens : List Nat) : List Nat :=
  if c.pageSize = 1 then tokens
  else ((tokens.map (· / c.pageSize)).dedup).insertionSort (· ≤ ·)

variable (freeIndex : List Nat)

/-- `_free_lazy`.  A page that is not bound would put `-1` on the free list; callers must not free
twice, and the model has no result there. -/
def freeLazy : Option MultiEndedAllocator :=
  let freeVPages := tokenPages c freeIndex
  (gather s.virtualToPhysical freeVPages).map fun freedPPages =>
    { s with
      virtualToPhysical := wipe s.virtualToPhysical freeVPages
      physicalToVirtual := wipe s.physicalToVirtual freedPPages
      freeVirtualIds :=
        if c.isIdOwner then s.freeVirtualIds ++ freeVPages else s.freeVirtualIds
      freePhysPages := mergeSorted c (s.freePhysPages ++ freedPPages)
      livePageCount := s.livePageCount - freedPPages.length }

/-- `free`. -/
def free : Option MultiEndedAllocator :=
  if freeIndex = [] then some s
  else if s.isNotInFreeGroup then s.freeLazy c freeIndex
  else some { s with freeGroup := s.freeGroup ++ freeIndex }

def freeGroupBegin : MultiEndedAllocator :=
  { s with isNotInFreeGroup := false, freeGroup := [] }

def freeGroupEnd : Option MultiEndedAllocator :=
  { s with isNotInFreeGroup := true, freeGroup := [] }.free c s.freeGroup

/-! ### The forward in flight -/

def setLatestForwardDoneEvent (event : Option Event) : MultiEndedAllocator :=
  { s with latestForwardDoneEvent := event }

def setInflightForward (forwardDone : Event) (outCacheLoc : List Nat) : MultiEndedAllocator :=
  { s with inflightForward := if outCacheLoc = [] then none else some (forwardDone, outCacheLoc) }

end MultiEndedAllocator

end SglangRuntime.MultiEnded
