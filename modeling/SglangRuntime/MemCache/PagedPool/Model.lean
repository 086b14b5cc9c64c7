import SglangRuntime.MemCache.PagedAllocator
import Mathlib.Data.List.Dedup

/-!
# Memory cache — free groups and the callers of the page allocator

`PagedTokenToKVPoolAllocator` with the free groups of its base class: between `free_group_begin` and
`free_group_end` nothing is returned; `free` keeps the slots and `free_segment` one slot of each page.
A call that answers `None` leaves the allocator as its merge left it.

`State` has, beside the allocator, the pages whose slots were handed to a caller and not freed since.
What a caller holds is read off the slots that the calls return, never off the free lists.
-/

namespace SglangRuntime

open Foundation

/-- `torch.unique`. -/
def unique (l : List Int) : List Int := l.dedup.insertionSort (· ≤ ·)

@[simp] theorem mem_unique {l : List Int} {p : Int} : p ∈ unique l ↔ p ∈ l := by
  simp [unique, List.mem_insertionSort]

theorem nodup_unique (l : List Int) : (unique l).Nodup :=
  (List.perm_insertionSort _ _).nodup_iff.mpr (List.nodup_dedup l)

structure PagedPool extends PagedAllocator where
  isNotInFreeGroup : Bool
  freeGroup : List (List Slot)
  freePageRepsGroup : List (List Slot)

namespace PagedPool

def allPages (c : PoolConfig) : List Int := (PagedAllocator.clear c).freePages

theorem nodup_allPages (c : PoolConfig) : (allPages c).Nodup :=
  List.nodup_range.map fun i j (h : (i : Int) + 1 = j + 1) => by omega

theorem mem_allPages {c : PoolConfig} {p : Int} : p ∈ allPages c ↔ 1 ≤ p ∧ p ≤ c.numPages := by
  simp only [allPages, PagedAllocator.clear, List.mem_map, List.mem_range]
  constructor
  · rintro ⟨i, hi, rfl⟩
    omega
  · rintro ⟨h₁, h₂⟩
    exact ⟨(p - 1).toNat, by omega, by omega⟩

variable (c : PoolConfig)

def clear : PagedPool := ⟨PagedAllocator.clear c, true, [], []⟩

variable (a : PagedPool)

/-- The answer of an allocation; `sorted` is the allocator at the time of the shortfall. -/
def answer {α : Type} (sorted : PagedAllocator) : Option (α × PagedAllocator) → Option α × PagedPool
  | some (out, b) => (some out, { a with toPagedAllocator := b })
  | none => (none, { a with toPagedAllocator := sorted })

section

variable (a : PagedPool)

def alloc (needSize : Nat) : Option (List Slot) × PagedPool :=
  a.answer (a.sortFor c (needSize / c.pageSize)) (a.toPagedAllocator.alloc c needSize)

def allocExtend (batch : List Extension) : Option (List (List Slot)) × PagedPool :=
  let extendNumTokens := (batch.map fun e => e.seqLen - e.prefixLen).sum
  a.answer (a.sortFor c (extendNumTokens / c.pageSize + batch.length + 1))
    (a.toPagedAllocator.allocExtend c batch)

def allocDecode (batch : List DecodeReq) : Option (List Slot) × PagedPool :=
  a.answer (a.sortFor c batch.length) (a.toPagedAllocator.allocDecode c batch)

def releasePageIds (pageIds : List Int) : PagedPool :=
  { a with toPagedAllocator := a.toPagedAllocator.releasePageIds c pageIds }

end

variable (freeIndex : List Slot)

def free : PagedPool :=
  if freeIndex = [] then a
  else if a.isNotInFreeGroup then a.releasePageIds c (unique (freeIndex.map (· / (c.pageSize : Int))))
  else { a with freeGroup := a.freeGroup ++ [freeIndex] }

variable (startPos : Nat)

/-- The `pieces` of `free_segment`: one slot of each page. -/
def pieces : List (List Slot) :=
  let offset := startPos % c.pageSize
  if offset = 0 then [stride c.pageSize freeIndex]
  else [freeIndex.take 1, stride c.pageSize (freeIndex.drop (c.pageSize - offset))]

def freeSegment : PagedPool :=
  if freeIndex = [] then a
  else if a.isNotInFreeGroup then
    a.releasePageIds c ((pieces c freeIndex startPos).flatten.map (· / (c.pageSize : Int)))
  else { a with freePageRepsGroup := a.freePageRepsGroup ++ pieces c freeIndex startPos }

/-- The segments that `free_segments` passes on; `prevEnd` is the end of the last one that was not
empty, and the head in a page shared with it is cut off. -/
def trimmed : Option Nat → List (List Slot × Nat) → List (List Slot × Nat)
  | _, [] => []
  | prevEnd, (freeIndex, startPos) :: segments =>
    if freeIndex = [] then trimmed prevEnd segments
    else
      let boundary := (startPos / c.pageSize + 1) * c.pageSize
      (if prevEnd.any fun e => startPos / c.pageSize == (e - 1) / c.pageSize then
          (freeIndex.drop (boundary - startPos), boundary)
        else (freeIndex, startPos)) :: trimmed (some (startPos + freeIndex.length)) segments

def freeSegments (segments : List (List Slot × Nat)) : PagedPool :=
  (trimmed c none segments).foldl (fun a s => a.freeSegment c s.1 s.2) a

def freeGroupBegin : PagedPool :=
  { a with isNotInFreeGroup := false, freeGroup := [], freePageRepsGroup := [] }

def freeGroupEnd : PagedPool :=
  let a := { a with isNotInFreeGroup := true }
  let a := if a.freeGroup = [] then a else a.free c a.freeGroup.flatten
  if a.freePageRepsGroup = [] then a
  else
    { a.releasePageIds c (a.freePageRepsGroup.flatten.map (· / (c.pageSize : Int))) with
      freePageRepsGroup := [] }

/-- The pages that wait for the end of the open free group. -/
def pending : List Int :=
  if a.isNotInFreeGroup then []
  else unique (a.freeGroup.flatten.map (· / (c.pageSize : Int))) ++
    a.freePageRepsGroup.flatten.map (· / (c.pageSize : Int))

/-! ### The callers -/

variable {Caller : Type}

inductive Event (Caller : Type) where
  | alloc (r : Caller) (needSize : Nat)
  | allocExtend (batch : List (Caller × Extension))
  | allocDecode (batch : List (Caller × DecodeReq))
  | free (r : Caller) (freeIndex : List Slot)
  | freeSegment (r : Caller) (freeIndex : List Slot) (startPos : Nat)
  | freeSegments (r : Caller) (segments : List (List Slot × Nat))
  | freeGroupBegin
  | freeGroupEnd

/-- What an event answers: the slots of each caller, or `None`. -/
def call : Event Caller → Option (List (Caller × List Slot)) × PagedPool
  | .alloc r needSize => (a.alloc c needSize).map (Option.map fun out => [(r, out)]) id
  | .allocExtend batch =>
    (a.allocExtend c (batch.map Prod.snd)).map (Option.map fun outs => (batch.map Prod.fst).zip outs) id
  | .allocDecode batch =>
    (a.allocDecode c (batch.map Prod.snd)).map
      (Option.map fun out => (batch.map Prod.fst).zip (out.map fun x => [x])) id
  | .free _ freeIndex => (some [], a.free c freeIndex)
  | .freeSegment _ freeIndex startPos => (some [], a.freeSegment c freeIndex startPos)
  | .freeSegments _ segments => (some [], a.freeSegments c segments)
  | .freeGroupBegin => (some [], a.freeGroupBegin)
  | .freeGroupEnd => (some [], a.freeGroupEnd c)

/-- The slots that an event gives back, with the caller that does so. -/
def Event.given : Event Caller → List (Caller × Slot)
  | .free r freeIndex => freeIndex.map (r, ·)
  | .freeSegment r freeIndex _ => freeIndex.map (r, ·)
  | .freeSegments r segments => (segments.flatMap Prod.fst).map (r, ·)
  | _ => []

variable [DecidableEq Caller]

variable (held : List (Caller × Int))

/-- A caller that is returned slots holds their pages. -/
def hold (o : Caller × List Slot) : List (Caller × Int) :=
  held ++ ((o.2.map (· / (c.pageSize : Int))).dedup.filter fun p => (o.1, p) ∉ held).map (o.1, ·)

/-- The first slot of a page that a caller frees frees the page. -/
def letGo (given : List (Caller × Slot)) : List (Caller × Int) :=
  held.filter fun h => h ∉ given.map fun g => (g.1, g.2 / (c.pageSize : Int))

structure State (Caller : Type) where
  pool : PagedPool
  held : List (Caller × Int)

def State.init : State Caller := ⟨clear c, []⟩

def State.step (s : State Caller) (e : Event Caller) : State Caller :=
  let (out, pool) := call c s.pool e
  ⟨pool, (out.getD []).foldl (hold c) (letGo c s.held e.given)⟩

/-! ### What callers keep to -/

/-- A consistent extension: the lengths do not shrink, and a partial last page is the caller's own, with
the last location at the place that the prefix length gives. -/
structure Consistent (held : List (Caller × Int)) (r : Caller) (e : Extension) : Prop where
  le : e.prefixLen ≤ e.seqLen
  last : ¬ c.pageSize ∣ e.prefixLen → (r, e.lastLoc / (c.pageSize : Int)) ∈ held ∧
    (e.lastLoc + 1) % (c.pageSize : Int) = ((e.prefixLen % c.pageSize : Nat) : Int)

/-- The slots of segments, with their places in the row. -/
def placed (segments : List (List Slot × Nat)) : List (Slot × Nat) :=
  segments.flatMap fun s => s.1.zipIdx s.2

/-- Ascending parts of one row: the places of a page of the row are the slots of one page. -/
structure RowParts (segments : List (List Slot × Nat)) : Prop where
  samePage : ∀ x ∈ placed segments, ∀ y ∈ placed segments,
    (x.1 / (c.pageSize : Int) = y.1 / (c.pageSize : Int) ↔ x.2 / c.pageSize = y.2 / c.pageSize)
  ascending : segments.Pairwise fun s t => s.2 + s.1.length ≤ t.2

/-- The caller holds the pages of the slots that the event gives back. -/
def Owned (e : Event Caller) : Prop :=
  ∀ g ∈ e.given, (g.1, g.2 / (c.pageSize : Int)) ∈ held

/-- What an event asks of its callers. -/
def Allowed (s : State Caller) (e : Event Caller) : Prop :=
  Owned c s.held e ∧
    match e with
    | .allocExtend batch => ∀ x ∈ batch, Consistent c s.held x.1 x.2
    | .allocDecode batch => ∀ x ∈ batch, 0 < x.2.seqLen ∧ Consistent c s.held x.1 x.2.toExtension
    | .freeSegment _ freeIndex startPos => RowParts c [(freeIndex, startPos)]
    | .freeSegments _ segments => RowParts c segments
    -- groups do not nest
    | .freeGroupBegin => s.pool.isNotInFreeGroup
    | .freeGroupEnd => s.pool.isNotInFreeGroup = false
    | .alloc .. | .free .. => True

/-- The states that allowed events reach, each meeting `cond`. -/
inductive Run (cond : State Caller → Event Caller → Prop) : State Caller → Prop where
  | init : Run cond (.init c)
  | step {s : State Caller} {e : Event Caller} (h : Run cond s) (ok : Allowed c s e)
      (he : cond s e) : Run cond (s.step c e)

end PagedPool

end SglangRuntime
