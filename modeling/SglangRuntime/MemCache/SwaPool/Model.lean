import SglangRuntime.Foundation.PageTable
import SglangRuntime.MemCache.PagedPool.Model

/-!
# Memory cache — `SWATokenToKVPoolAllocator`

The allocator of hybrid sliding-window models (`mem_cache/allocator/swa.py`): a full and a sliding-window
allocator, and the table `full_to_swa_index_mapping` that gives a full slot its SWA slot.  With pages of
one slot both are a `TokenToKVPoolAllocator`, else a `PagedTokenToKVPoolAllocator`; neither is ever in a
free group of its own.  `none` of a call is an assertion that fails, and `some (none, _)` its `None`.

`State` also counts, for every full page, the slots of it that callers were handed and hold.  Beside the
calls of the allocator there are the two ways in which a cache maps full slots anew: a load-back, which
allocates SWA slots for full pages that have none, and the recovery of a node whose full slots are locked,
which moves the SWA slots of an incoming row to it and frees the incoming full slots alone.
-/

namespace SglangRuntime

open Foundation PagedAllocator

structure SwaConfig where
  pageSize : Nat
  pageSize_pos : 0 < pageSize
  size : Nat
  sizeSwa : Nat
  needSort : Bool

namespace SwaConfig

variable (c : SwaConfig)

def full : PoolConfig := ⟨c.pageSize, c.pageSize_pos, c.size / c.pageSize, c.needSort⟩

def swa : PoolConfig := ⟨c.pageSize, c.pageSize_pos, c.sizeSwa / c.pageSize, c.needSort⟩

end SwaConfig

namespace PagedAllocator

/-- The pages of `available_size`. -/
def availablePages (a : PagedAllocator) : Nat := a.freePages.length + a.releasePages.length

/-- The answer of a call and the allocator after it; `sorted` is the allocator of a shortfall. -/
def settle {α : Type} (sorted : PagedAllocator) :
    Option (α × PagedAllocator) → Option α × PagedAllocator
  | some (out, a) => (some out, a)
  | none => (none, sorted)

/-- The pages that `free` returns: a token allocator takes the slots as they are. -/
def pageIds (pageSize : Nat) (freeIndex : List Slot) : List Int :=
  if pageSize = 1 then freeIndex else unique (freeIndex.map (· / (pageSize : Int)))

/-- `free`, outside free groups: a token allocator puts the slots at the end of its list, a page
allocator puts the pages at the front. -/
def free (c : PoolConfig) (a : PagedAllocator) (freeIndex : List Slot) : PagedAllocator :=
  if freeIndex = [] then a
  else if c.pageSize = 1 then
    if c.needSort then { a with releasePages := a.releasePages ++ freeIndex }
    else { a with freePages := a.freePages ++ freeIndex }
  else a.releasePageIds c (unique (freeIndex.map (· / (c.pageSize : Int))))

end PagedAllocator

/-- The slots of pages, in order. -/
def pageSlots (pageSize : Nat) (pages : List Int) : List Slot :=
  pages.flatMap fun p => (List.range pageSize).map fun o : Nat => p * pageSize + (o : Int)

structure SwaPool where
  fullAttnAllocator : PagedAllocator
  swaAttnAllocator : PagedAllocator
  fullToSwaIndexMapping : Int → Int
  isNotInFreeGroup : Bool
  freeGroup : List (List Slot)
  swaFreeGroup : List (List Slot)

namespace SwaPool

variable (c : SwaConfig)

/-- The entry of index `-1` is `-1`. -/
def clear : SwaPool :=
  ⟨.clear c.full, .clear c.swa, fun x => if x = -1 then -1 else 0, true, [], []⟩

variable (mapping : Int → Int)

variable (fullIndices : List Slot)

/-- `set_full_to_swa_mapping`. -/
def setFullToSwaMapping (swaIndices : List Slot) : Int → Int :=
  writeAll mapping fullIndices swaIndices

/-- `clear_full_to_swa_mapping`. -/
def clearFullToSwaMapping : Int → Int :=
  clearAll mapping fullIndices

variable (a : SwaPool)

def newPagesAvailable (numFullPages numSwaPages : Nat) : Bool :=
  decide (numFullPages ≤ a.fullAttnAllocator.availablePages) &&
    decide (numSwaPages ≤ a.swaAttnAllocator.availablePages)

def alloc (a : SwaPool) (needSize : Nat) : Option (Option (List Slot) × SwaPool) :=
  if c.pageSize ≠ 1 then none
  else if a.fullAttnAllocator.availablePages < needSize then some (none, a)
  else if a.swaAttnAllocator.availablePages < needSize then some (none, a)
  else do
    let (allocFullIndices, full) ← a.fullAttnAllocator.alloc c.full needSize
    let (allocSwaIndices, swa) ← a.swaAttnAllocator.alloc c.swa needSize
    some (some allocFullIndices,
      { a with
        fullAttnAllocator := full, swaAttnAllocator := swa,
        fullToSwaIndexMapping :=
          setFullToSwaMapping a.fullToSwaIndexMapping allocFullIndices allocSwaIndices })

variable (e : Extension)

/-- What the SWA side is given for the extension of a row: its last location is translated. -/
def swaExtension : Extension :=
  { e with lastLoc := mapping e.lastLoc }

def allocExtend (a : SwaPool) (batch : List Extension) : Option (Option (List Slot) × SwaPool) :=
  if ¬ 1 < c.pageSize then none
  else
    let numNewPages := (batch.map (·.numNewPages c.pageSize)).sum
    if a.newPagesAvailable numNewPages numNewPages then do
      let (allocFullIndices, full) ← a.fullAttnAllocator.allocExtend c.full batch
      let (allocSwaIndices, swa) ← a.swaAttnAllocator.allocExtend c.swa
        (batch.map (swaExtension a.fullToSwaIndexMapping))
      some (some allocFullIndices.flatten,
        { a with
          fullAttnAllocator := full, swaAttnAllocator := swa,
          fullToSwaIndexMapping := setFullToSwaMapping a.fullToSwaIndexMapping
            allocFullIndices.flatten allocSwaIndices.flatten })
    else some (none, a)

/-- `alloc_extend_swa_tail`, for one request. -/
def allocExtendSwaTail (swaTailLen : Nat) : Option (Option (List Slot) × SwaPool) :=
  let extendNumTokens := e.seqLen - e.prefixLen
  if ¬ (1 < c.pageSize ∧ swaTailLen ≤ extendNumTokens) then none
  else
    let numFullPages := e.numNewPages c.pageSize
    let numSwaPages := numPagesOf c.pageSize swaTailLen
    if a.newPagesAvailable numFullPages numSwaPages then do
      let (out, full) ← a.fullAttnAllocator.allocExtend c.full [e]
      let allocFullIndices := out.flatten
      if swaTailLen = 0 then some (some allocFullIndices, { a with fullAttnAllocator := full })
      else
        let (swaOut, swa) ← a.swaAttnAllocator.allocExtend c.swa [⟨0, swaTailLen, -1⟩]
        let headLen := allocFullIndices.length - swaTailLen
        let mapping := setFullToSwaMapping a.fullToSwaIndexMapping
          (allocFullIndices.drop headLen) swaOut.flatten
        some (some allocFullIndices,
          { a with
            fullAttnAllocator := full, swaAttnAllocator := swa,
            fullToSwaIndexMapping :=
              if swaTailLen < extendNumTokens then
                clearFullToSwaMapping mapping (allocFullIndices.take headLen)
              else mapping })
    else some (none, a)

/-- `alloc_decode`: there is no check that both sides have the pages. -/
def allocDecode (a : SwaPool) (batch : List DecodeReq) : Option (Option (List Slot) × SwaPool) :=
  if ¬ 1 < c.pageSize then none
  else
    let swaBatch := batch.map fun d => { d with lastLoc := a.fullToSwaIndexMapping d.lastLoc }
    let (allocFullIndices, full) := settle
      (a.fullAttnAllocator.sortFor c.full batch.length) (a.fullAttnAllocator.allocDecode c.full batch)
    let (allocSwaIndices, swa) := settle
      (a.swaAttnAllocator.sortFor c.swa batch.length) (a.swaAttnAllocator.allocDecode c.swa swaBatch)
    let a := { a with fullAttnAllocator := full, swaAttnAllocator := swa }
    match allocFullIndices, allocSwaIndices with
    | some fullIndices, some swaIndices =>
      some (some fullIndices, { a with
        fullToSwaIndexMapping := setFullToSwaMapping a.fullToSwaIndexMapping fullIndices swaIndices })
    | _, _ => some (none, a)

variable (freeIndex : List Slot)

/-- The entries that `free_swa` reads and clears. -/
def mappingIndices : List Slot :=
  if c.pageSize = 1 then freeIndex
  else pageSlots c.pageSize (unique (freeIndex.map (· / (c.pageSize : Int))))

def freeSwa : SwaPool :=
  if freeIndex = [] then a
  else
    let indices := mappingIndices c freeIndex
    let swaIndices := (indices.map a.fullToSwaIndexMapping).filter (0 < ·)
    let a := { a with
      fullToSwaIndexMapping := clearFullToSwaMapping a.fullToSwaIndexMapping indices }
    if a.isNotInFreeGroup then
      { a with swaAttnAllocator := a.swaAttnAllocator.free c.swa swaIndices }
    else { a with swaFreeGroup := a.swaFreeGroup ++ [swaIndices] }

def free (a : SwaPool) (freeIndex : List Slot) : Option SwaPool :=
  if freeIndex = [] then some a
  else
    let a :=
      if a.isNotInFreeGroup then
        { a with fullAttnAllocator := a.fullAttnAllocator.free c.full freeIndex }.freeSwa c freeIndex
      else { a with freeGroup := a.freeGroup ++ [freeIndex] }
    if a.fullAttnAllocator.availablePages * c.pageSize ≤ c.size ∧
        a.swaAttnAllocator.availablePages * c.pageSize ≤ c.sizeSwa then some a
    else none

def freeGroupBegin : SwaPool :=
  { a with isNotInFreeGroup := false, freeGroup := [], swaFreeGroup := [] }

def freeGroupEnd : Option SwaPool := do
  let a := { a with isNotInFreeGroup := true }
  let a ← if a.freeGroup = [] then some a else a.free c a.freeGroup.flatten
  if a.swaFreeGroup = [] then some a
  else
    some { a with
      swaFreeGroup := [], swaAttnAllocator := a.swaAttnAllocator.free c.swa a.swaFreeGroup.flatten }

/-- The load-back of full slots: SWA slots are allocated and mapped to. -/
def loadBack : SwaPool :=
  let (out, swa) := settle
    (a.swaAttnAllocator.sortFor c.swa (fullIndices.length / c.pageSize))
    (a.swaAttnAllocator.alloc c.swa fullIndices.length)
  let a := { a with swaAttnAllocator := swa }
  match out with
  | some swaIndices =>
    { a with
      fullToSwaIndexMapping := setFullToSwaMapping a.fullToSwaIndexMapping fullIndices swaIndices }
  | none => a

/-- `_recover_tombstone_keeping_locked_full`. -/
def recover (keptFull incomingFull : List Slot) : SwaPool :=
  let swaValue := incomingFull.map a.fullToSwaIndexMapping
  { a with
    fullToSwaIndexMapping := clearFullToSwaMapping
      (setFullToSwaMapping a.fullToSwaIndexMapping keptFull swaValue) incomingFull
    fullAttnAllocator := a.fullAttnAllocator.free c.full incomingFull }

/-- The full pages of the open free group. -/
def pendingFull : List Int :=
  if a.isNotInFreeGroup then [] else pageIds c.pageSize a.freeGroup.flatten

/-- The pages of the pending SWA group. -/
def pendingSwa : List Int := pageIds c.pageSize a.swaFreeGroup.flatten

/-! ### Runs -/

inductive Event where
  | alloc (needSize : Nat)
  | allocExtend (batch : List Extension)
  | allocExtendSwaTail (e : Extension) (swaTailLen : Nat)
  | allocDecode (batch : List DecodeReq)
  | free (freeIndex : List Slot)
  | freeSwa (freeIndex : List Slot)
  | loadBack (fullIndices : List Slot)
  | recover (keptFull incomingFull : List Slot)
  | freeGroupBegin
  | freeGroupEnd

structure State where
  pool : SwaPool
  filled : Int → Nat

def State.init : State := ⟨clear c, fun _ => 0⟩

variable (filled : Int → Nat)

/-- The callers hold the slots they are returned. -/
def fill (out : List Slot) : Int → Nat :=
  fun p => filled p + out.countP fun x => x / (c.pageSize : Int) == p

/-- A page whose slots are freed, some or all of them, is given up. -/
def giveUp (freeIndex : List Slot) : Int → Nat :=
  fun p => if p ∈ freeIndex.map (· / (c.pageSize : Int)) then 0 else filled p

variable (s : State)

def State.exec : Event → Option State
  | .alloc needSize => (s.pool.alloc c needSize).map fun (out, a) => ⟨a, fill c s.filled (out.getD [])⟩
  | .allocExtend batch =>
    (s.pool.allocExtend c batch).map fun (out, a) => ⟨a, fill c s.filled (out.getD [])⟩
  | .allocExtendSwaTail e swaTailLen =>
    (s.pool.allocExtendSwaTail c e swaTailLen).map fun (out, a) => ⟨a, fill c s.filled (out.getD [])⟩
  | .allocDecode batch =>
    (s.pool.allocDecode c batch).map fun (out, a) => ⟨a, fill c s.filled (out.getD [])⟩
  | .free freeIndex => (s.pool.free c freeIndex).map fun a => ⟨a, giveUp c s.filled freeIndex⟩
  | .freeSwa freeIndex => some ⟨s.pool.freeSwa c freeIndex, s.filled⟩
  | .loadBack fullIndices => some ⟨s.pool.loadBack c fullIndices, s.filled⟩
  | .recover keptFull incomingFull =>
    some ⟨s.pool.recover c keptFull incomingFull, giveUp c s.filled incomingFull⟩
  | .freeGroupBegin => some ⟨s.pool.freeGroupBegin, s.filled⟩
  | .freeGroupEnd => (s.pool.freeGroupEnd c).map fun a => ⟨a, s.filled⟩

/-- A consistent extension: a partial last page was handed out up to the last location. -/
structure Continues (filled : Int → Nat) (e : Extension) : Prop where
  le : e.prefixLen ≤ e.seqLen
  last : ¬ c.pageSize ∣ e.prefixLen →
    filled (e.lastLoc / (c.pageSize : Int)) = e.prefixLen % c.pageSize ∧
      (e.lastLoc + 1) % (c.pageSize : Int) = ((e.prefixLen % c.pageSize : Nat) : Int)

/-- Two rows of a batch do not continue one page. -/
def Apart (e' : Extension) : Prop :=
  ¬ c.pageSize ∣ e.prefixLen → ¬ c.pageSize ∣ e'.prefixLen →
    e.lastLoc / (c.pageSize : Int) ≠ e'.lastLoc / (c.pageSize : Int)

/-- Slots of whole pages that callers hold, in order. -/
def WholePages (slots : List Slot) (pages : List Int) : Prop :=
  slots = pageSlots c.pageSize pages ∧ pages.Nodup ∧ ∀ p ∈ pages, s.filled p = c.pageSize

/-- What the callers keep to. -/
def Allowed (s : State) : Event → Prop
  | .alloc _ => c.pageSize = 1
  | .allocExtend batch =>
    1 < c.pageSize ∧ (∀ e ∈ batch, Continues c s.filled e) ∧ batch.Pairwise (Apart c)
  | .allocExtendSwaTail e swaTailLen =>
    1 < c.pageSize ∧ Continues c s.filled e ∧ swaTailLen ≤ e.seqLen - e.prefixLen ∧
      c.pageSize ∣ e.seqLen - swaTailLen
  | .allocDecode batch =>
    1 < c.pageSize ∧ (∀ d ∈ batch, 0 < d.seqLen ∧ Continues c s.filled d.toExtension) ∧
      (batch.map DecodeReq.toExtension).Pairwise (Apart c)
  | .free freeIndex =>
    (∀ x ∈ freeIndex, 0 < s.filled (x / (c.pageSize : Int))) ∧ (c.pageSize = 1 → freeIndex.Nodup)
  | .freeSwa freeIndex =>
    (∀ x ∈ freeIndex, s.filled (x / (c.pageSize : Int)) = c.pageSize ∨
        x / (c.pageSize : Int) ∈ s.pool.pendingFull c) ∧
      (c.pageSize = 1 → freeIndex.Nodup)
  | .loadBack fullIndices =>
    ∃ pages, WholePages c s fullIndices pages ∧ ∀ x ∈ fullIndices, s.pool.fullToSwaIndexMapping x = 0
  | .recover keptFull incomingFull =>
    ∃ pages pages', WholePages c s keptFull pages ∧ WholePages c s incomingFull pages' ∧
      pages.length = pages'.length ∧ pages.Disjoint pages' ∧
      (∀ x ∈ keptFull, s.pool.fullToSwaIndexMapping x = 0) ∧
      ∀ x ∈ incomingFull, s.pool.fullToSwaIndexMapping x ≠ 0
  | .freeGroupBegin => s.pool.isNotInFreeGroup
  | .freeGroupEnd => s.pool.isNotInFreeGroup = false

/-- The states that allowed calls reach, each meeting `cond`. -/
inductive Run (cond : State → Event → Prop) : State → Prop where
  | init : Run cond (.init c)
  | step {s s' : State} {e : Event} (h : Run cond s) (ok : Allowed c s e) (he : cond s e)
      (hx : s.exec c e = some s') : Run cond s'

/-- A decode batch that the full side refuses is not granted by the SWA side: it needs no page there, or
the SWA side is short too. -/
def DecodesBoth : Event → Prop
  | .allocDecode batch =>
    let numNewPages := (batch.filter fun d => d.seqLen % c.pageSize == 1).length
    numNewPages ≤ s.pool.swaAttnAllocator.availablePages →
      numNewPages ≤ s.pool.fullAttnAllocator.availablePages
  | _ => True

end SwaPool

end SglangRuntime
