import SglangRuntime.Foundation.PageList
import SglangRuntime.MemCache.KeyWalk
import Mathlib.Data.List.Sort

/-!
# Memory cache — `PagedTokenToKVPoolAllocator`

The page allocator of `mem_cache/allocator/paged.py`, outside free groups, with the two kernels that
hand out slots (`alloc_extend_kernel`, `alloc_decode_kernel`).  A batch is a list; the kernel's
prefix sums over the batch are what is dropped from the free list on the way.

A `none` of `alloc`, `alloc_extend` and `alloc_decode` is the `None` of a shortfall.
-/

namespace SglangRuntime

open Foundation List List

structure PoolConfig where
  pageSize : Nat
  pageSize_pos : 0 < pageSize
  numPages : Nat
  needSort : Bool

structure PagedAllocator where
  freePages : List Int
  releasePages : List Int

/-- What `alloc_extend` is given for one request. -/
structure Extension where
  prefixLen : Nat
  seqLen : Nat
  lastLoc : Slot

namespace Extension

variable (pageSize : Nat) (e : Extension)

def numNewPages : Nat := numPagesOf pageSize e.seqLen - numPagesOf pageSize e.prefixLen

def numPart1 : Nat := min e.seqLen (numPagesOf pageSize e.prefixLen * pageSize) - e.prefixLen

def numPart2 : Nat :=
  e.seqLen / pageSize * pageSize - numPagesOf pageSize e.prefixLen * pageSize

def numPart3 : Nat := e.seqLen - e.seqLen / pageSize * pageSize

/-- The slots that one program of `alloc_extend_kernel` writes: the rest of the old partial page, the
new full pages and the new partial page. -/
def slots (freePages : List Int) : List Slot :=
  (range (e.numPart1 pageSize)).map (fun i : Nat => e.lastLoc + 1 + (i : Int)) ++
    if e.prefixLen + e.numPart1 pageSize = e.seqLen then []
    else
      (range (e.numPart2 pageSize)).map
          (fun o => freePages.getD (o / pageSize) 0 * pageSize + ((o % pageSize : Nat) : Int)) ++
        if e.prefixLen + e.numPart1 pageSize + e.numPart2 pageSize = e.seqLen then []
        else
          (range (e.numPart3 pageSize)).map fun o : Nat =>
            freePages.getD (e.numNewPages pageSize - 1) 0 * pageSize + (o : Int)

end Extension

/-- `alloc_extend_kernel`, over the batch. -/
def allocExtendKernel (pageSize : Nat) : List Extension → List Int → List (List Slot)
  | [], _ => []
  | e :: es, freePages =>
    e.slots pageSize freePages ::
      allocExtendKernel pageSize es (freePages.drop (e.numNewPages pageSize))

/-- One request of a decode batch: its length with the new token, and its last slot. -/
structure DecodeReq where
  seqLen : Nat
  lastLoc : Slot

def DecodeReq.numNewPages (pageSize : Nat) (d : DecodeReq) : Nat :=
  numPagesOf pageSize d.seqLen - numPagesOf pageSize (d.seqLen - 1)

/-- `alloc_decode_kernel`, over the batch. -/
def allocDecodeKernel (pageSize : Nat) : List DecodeReq → List Int → List Slot
  | [], _ => []
  | d :: ds, freePages =>
    (if d.numNewPages pageSize = 0 then d.lastLoc + 1 else freePages.getD 0 0 * pageSize) ::
      allocDecodeKernel pageSize ds (freePages.drop (d.numNewPages pageSize))

namespace PagedAllocator

variable (c : PoolConfig)

def clear : PagedAllocator := ⟨(range c.numPages).map fun i : Nat => (i : Int) + 1, []⟩

section

variable (a : PagedAllocator)

def mergeAndSortFree : PagedAllocator :=
  if 0 < a.releasePages.length then
    ⟨(a.freePages ++ a.releasePages).insertionSort (· ≤ ·), []⟩
  else a

/-- The merge that a sorting allocator makes when `n` pages may not be there. -/
def sortFor (n : Nat) : PagedAllocator :=
  if c.needSort && decide (a.freePages.length < n) then a.mergeAndSortFree else a

def alloc (needSize : Nat) : Option (List Slot × PagedAllocator) :=
  let numPages := needSize / c.pageSize
  let a := a.sortFor c numPages
  if a.freePages.length < numPages then none
  else
    some ((a.freePages.take numPages).flatMap fun p =>
        (range c.pageSize).map fun o : Nat => p * c.pageSize + (o : Int),
      { a with freePages := a.freePages.drop numPages })

/-- `alloc_extend`: the new slots of each request. -/
def allocExtend (batch : List Extension) : Option (List (List Slot) × PagedAllocator) :=
  let extendNumTokens := (batch.map fun e => e.seqLen - e.prefixLen).sum
  let a := a.sortFor c (extendNumTokens / c.pageSize + batch.length + 1)
  let out := allocExtendKernel c.pageSize batch a.freePages
  -- `get_num_new_pages`
  let numNewPages := (batch.map (·.numNewPages c.pageSize)).sum
  if a.freePages.length < numNewPages then none
  else some (out, { a with freePages := a.freePages.drop numNewPages })

/-- `alloc_decode`: the new slot of each request. -/
def allocDecode (batch : List DecodeReq) : Option (List Slot × PagedAllocator) :=
  let a := a.sortFor c batch.length
  let out := allocDecodeKernel c.pageSize batch a.freePages
  -- `get_num_new_pages` with `decode=True`
  let numNewPages := (batch.filter fun d => d.seqLen % c.pageSize == 1).length
  if a.freePages.length < numNewPages then none
  else some (out, { a with freePages := a.freePages.drop numNewPages })

end

/-- The parts of `out_cache_loc` that the requests of a batch take. -/
def splitLens : List Nat → List Slot → List (List Slot)
  | [], _ => []
  | n :: ns, l => l.take n :: splitLens ns (l.drop n)

section

variable (a : PagedAllocator)

/-- The allocation of `alloc_for_extend` and `alloc_for_spec_decode`. -/
def allocForExtend (batch : List Extension) :
    Option (List (List Slot) × PagedAllocator) :=
  if c.pageSize = 1 then
    let lens := batch.map fun e => e.seqLen - e.prefixLen
    (a.alloc c lens.sum).map fun (out, a) => (splitLens lens out, a)
  else a.allocExtend c batch

/-- The allocation of `alloc_for_decode`. -/
def allocForDecode (batch : List DecodeReq) :
    Option (List Slot × PagedAllocator) :=
  if c.pageSize = 1 then a.alloc c batch.length else a.allocDecode c batch

/-- `_release_page_ids`. -/
def releasePageIds (pageIds : List Int) : PagedAllocator :=
  if c.needSort then { a with releasePages := pageIds ++ a.releasePages }
  else { a with freePages := pageIds ++ a.freePages }

/-- `free_segment`: one slot of each page is kept, and the pages are released. -/
def freeSegment (freeIndex : List Slot) (startPos : Nat) : PagedAllocator :=
  if freeIndex = [] then a
  else
    let offset := startPos % c.pageSize
    let pieces :=
      if offset = 0 then stride c.pageSize freeIndex
      else freeIndex.take 1 ++ stride c.pageSize (freeIndex.drop (c.pageSize - offset))
    a.releasePageIds c (pieces.map (· / (c.pageSize : Int)))

end

/-- The loop of `free_segments`; `prevEnd` is the end of the last non-empty segment. -/
def freeSegmentsFrom : PagedAllocator → Option Nat → List (List Slot × Nat) → PagedAllocator
  | a, _, [] => a
  | a, prevEnd, (freeIndex, startPos) :: segments =>
    if freeIndex = [] then freeSegmentsFrom a prevEnd segments
    else
      let segEnd := startPos + freeIndex.length
      let boundary := (startPos / c.pageSize + 1) * c.pageSize
      -- a boundary page shared with the segment before is not released again
      let a :=
        if prevEnd.any fun e => startPos / c.pageSize == (e - 1) / c.pageSize then
          a.freeSegment c (freeIndex.drop (boundary - startPos)) boundary
        else a.freeSegment c freeIndex startPos
      freeSegmentsFrom a (some segEnd) segments

def freeSegments (a : PagedAllocator) (segments : List (List Slot × Nat)) : PagedAllocator :=
  a.freeSegmentsFrom c none segments

/-! ### What the allocator holds -/

variable {c} {a a' : PagedAllocator} {p : Int}

section

variable (a : PagedAllocator)

/-- How often page `p` is in the free and release lists. -/
def count (p : Int) : Nat := (a.freePages ++ a.releasePages).count p

theorem count_mergeAndSortFree (p : Int) : a.mergeAndSortFree.count p = a.count p := by
  unfold mergeAndSortFree
  split_ifs
  · simp only [count, append_nil]
    exact (perm_insertionSort _ _).count_eq p
  · rfl

theorem count_sortFor (n : Nat) (p : Int) : (a.sortFor c n).count p = a.count p := by
  unfold sortFor
  split_ifs
  · exact count_mergeAndSortFree a p
  · rfl

theorem count_drop (n : Nat) (p : Int) :
    count { a with freePages := a.freePages.drop n } p + (a.freePages.take n).count p =
      a.count p := by
  have h : (a.freePages.take n ++ a.freePages.drop n).count p = a.freePages.count p := by
    rw [take_append_drop]
  simp only [count, count_append] at h ⊢
  omega

theorem count_releasePageIds (ids : List Int) (p : Int) :
    (a.releasePageIds c ids).count p = a.count p + ids.count p := by
  unfold releasePageIds
  split_ifs <;> simp only [count, count_append] <;> omega

/-- A segment that starts at a page boundary returns its pages. -/
theorem count_freeSegment {l : List Slot} {startPos : Nat} (hd : c.pageSize ∣ startPos) (p : Int) :
    (a.freeSegment c l startPos).count p = a.count p + (pagesOf c.pageSize l).count p := by
  have h0 : startPos % c.pageSize = 0 := Nat.mod_eq_zero_of_dvd hd
  simp only [freeSegment, h0, if_true]
  split_ifs with hl
  · subst hl
    simp [pagesOf, stride, numPagesOf_zero c.pageSize_pos]
  · exact count_releasePageIds a _ p

/-- Two segments that start at page boundaries share no page. -/
theorem count_freeSegments_two {l l' : List Slot} {start start' : Nat}
    (hd : c.pageSize ∣ start) (hd' : c.pageSize ∣ start') (hle : start + l.length ≤ start')
    (p : Int) : (a.freeSegments c [(l, start), (l', start')]).count p =
      a.count p + (pagesOf c.pageSize l).count p + (pagesOf c.pageSize l').count p := by
  have hnil : pagesOf c.pageSize [] = [] := by
    simp [pagesOf, stride, numPagesOf_zero c.pageSize_pos]
  have hsep : l ≠ [] → ¬ (start' / c.pageSize = (start + l.length - 1) / c.pageSize) := by
    intro hl e
    have hpos := length_pos_of_ne_nil hl
    have := Nat.div_mul_cancel hd'
    have := Nat.div_mul_le_self (start + l.length - 1) c.pageSize
    rw [← e] at this
    omega
  simp only [freeSegments, freeSegmentsFrom, Option.any_none, Bool.false_eq_true, if_false]
  by_cases hl : l = []
  · subst hl
    rw [if_pos rfl, hnil]
    by_cases hl' : l' = []
    · subst hl'
      simp [hnil]
    · rw [if_neg hl', count_freeSegment a hd']
      simp
  · rw [if_neg hl]
    by_cases hl' : l' = []
    · subst hl'
      rw [if_pos rfl, count_freeSegment a hd, hnil]
      simp
    · have hno : (Option.any (fun e => start' / c.pageSize == (e - 1) / c.pageSize)
          (some (start + l.length))) = false := by
        simpa using hsep hl
      rw [if_neg hl', hno, if_neg Bool.false_ne_true, count_freeSegment _ hd',
        count_freeSegment a hd]

/-! ### What an extension hands out -/

end

end PagedAllocator

section Slots

variable {ps : Nat} {l pages freePages : List Int}

section

variable (hn : 0 < ps) {e : Extension}
include hn

/-- An extension within the last page of the prefix. -/
theorem Extension.within (he : e.prefixLen ≤ e.seqLen)
    (hfit : e.seqLen ≤ numPagesOf ps e.prefixLen * ps) :
    e.prefixLen + e.numPart1 ps = e.seqLen ∧ e.numNewPages ps = 0 := by
  have hmono := numPagesOf_mono (n := ps) hfit
  rw [numPagesOf_mul hn] at hmono
  rw [numPart1, Nat.min_eq_left hfit, numNewPages]
  omega

/-- An extension by `m` tokens behind the last page of the prefix. -/
theorem Extension.parts {m : Nat} (hm : e.seqLen = numPagesOf ps e.prefixLen * ps + m) :
    e.prefixLen + e.numPart1 ps + m = e.seqLen ∧
      e.seqLen / ps = numPagesOf ps e.prefixLen + m / ps ∧ e.numPart2 ps = m / ps * ps ∧
      e.numPart3 ps = m % ps ∧ e.numNewPages ps = numPagesOf ps m := by
  have hle := le_numPagesOf_mul hn e.prefixLen
  have hdm := Nat.div_add_mod' m ps
  have hdiv : e.seqLen / ps = numPagesOf ps e.prefixLen + m / ps := by
    rw [hm, Nat.add_comm, Nat.add_mul_div_right _ _ hn, Nat.add_comm]
  have hnew := numPagesOf_mul_add hn (numPagesOf ps e.prefixLen) m
  rw [← hm] at hnew
  refine ⟨?_, hdiv, ?_⟩
  all_goals
    simp only [numPart1, numPart2, numPart3, numNewPages, hdiv, hnew, Nat.add_mul]
    omega

/-- The rest of the last page, and then the new pages, the full ones and the partial one by one
rule. -/
theorem Extension.slots_eq (he : e.prefixLen ≤ e.seqLen)
    (freePages : List Int) : e.slots ps freePages =
      ((range (e.numPart1 ps)).map fun o : Nat => e.lastLoc + 1 + (o : Int)) ++
        (range (e.seqLen - e.prefixLen - e.numPart1 ps)).map fun o =>
          freePages.getD (o / ps) 0 * ps + ((o % ps : Nat) : Int) := by
  rw [slots]
  congr 1
  rcases le_or_gt e.seqLen (numPagesOf ps e.prefixLen * ps) with hfit | hmore
  · obtain ⟨hall, -⟩ := within hn he hfit
    have hnone : e.seqLen - e.prefixLen - e.numPart1 ps = 0 := by omega
    rw [if_pos hall, hnone]
    rfl
  obtain ⟨m, hm⟩ := Nat.exists_eq_add_of_le hmore.le
  obtain ⟨hall, -, h₂, h₃, hnew⟩ := parts hn hm
  have hdm := Nat.div_add_mod' m ps
  have hrest : e.seqLen - e.prefixLen - e.numPart1 ps = m / ps * ps + m % ps := by omega
  rw [if_neg (by omega), hrest, range_add, map_append, h₂, h₃, hnew, numPagesOf_eq hn]
  congr 1
  split_ifs with hfin h0
  · have h0 : m % ps = 0 := by omega
    rw [h0]
    rfl
  · omega
  · rw [map_map]
    refine map_congr_left fun o ho => ?_
    have ho : o < ps := (mem_range.mp ho).trans (Nat.mod_lt m hn)
    simp only [Function.comp_apply, Nat.add_sub_cancel, Nat.add_comm (m / ps * ps) o,
      Nat.add_mul_div_right o (m / ps) hn, Nat.div_eq_of_lt ho, Nat.zero_add,
      Nat.add_mul_mod_self_right, Nat.mod_eq_of_lt ho]

/-- **The slots of an extension** continue a row that covers its pages. -/
theorem Extension.slots_covers (h : Covers ps l pages) {k : Nat}
    (hpre : e.prefixLen = k * ps + l.length) (hlast : l ≠ [] → l.getLast? = some e.lastLoc)
    (hseq : e.prefixLen ≤ e.seqLen) (hfree : e.numNewPages ps ≤ freePages.length) :
    Covers ps (l ++ e.slots ps freePages) (pages ++ freePages.take (e.numNewPages ps)) := by
  have hceil : numPagesOf ps e.prefixLen = k + pages.length := by
    rw [hpre, numPagesOf_mul_add hn, h.length]
  have hle := le_numPagesOf_mul hn l.length
  rw [← h.length] at hle
  have hmul : (k + pages.length) * ps = k * ps + pages.length * ps := Nat.add_mul ..
  have hpart : e.numPart1 ps = min e.seqLen ((k + pages.length) * ps) - e.prefixLen := by
    rw [numPart1, hceil]
  have hroom : 0 < e.numPart1 ps → l.getLast? = some e.lastLoc := fun hpos => hlast fun hl => by
    have hempty : pages.length = 0 := by simpa [hl, numPagesOf_zero hn] using h.length
    rw [hempty] at hmul hpart
    omega
  have hfilled := h.fill hn hroom (by omega)
  rw [slots_eq hn hseq, ← append_assoc]
  rcases le_or_gt e.seqLen ((k + pages.length) * ps) with hfit | hmore
  · -- the row stays within its last page
    obtain ⟨hall, hnone⟩ := within hn hseq (hceil ▸ hfit)
    have hrest : e.seqLen - e.prefixLen - e.numPart1 ps = 0 := by omega
    rw [hnone, hrest, take_zero, append_nil]
    exact (append_nil _).symm ▸ hfilled
  · obtain ⟨m, hm⟩ := Nat.exists_eq_add_of_le hmore.le
    obtain ⟨hall, -, -, -, hnew⟩ := parts hn (hceil ▸ hm)
    have hrest : e.seqLen - e.prefixLen - e.numPart1 ps = m := by omega
    rw [hnew] at hfree ⊢
    rw [hrest]
    refine hfilled.append hn ?_ (by simp; omega)
    have hlen : (freePages.take (numPagesOf ps m)).length = numPagesOf ps m :=
      length_take_of_le hfree
    refine Covers.slots (f := fun i => freePages.getD i 0) hn hlen fun i hi => ?_
    rw [hlen] at hi
    rw [getElem?_take_of_lt hi]
    simp [getD_eq_getElem?_getD, getElem?_eq_getElem (hi.trans_le hfree)]

theorem Extension.length_slots (e : Extension) (freePages : List Int)
    (he : e.prefixLen ≤ e.seqLen) : (e.slots ps freePages).length = e.seqLen - e.prefixLen := by
  have hle : e.numPart1 ps ≤ e.seqLen - e.prefixLen := Nat.sub_le_sub_right (Nat.min_le_left ..) _
  rw [slots_eq hn he, length_append, length_map, length_range, length_map,
    length_range, Nat.add_sub_cancel' hle]

/-- The part of the row in its partial last page. -/
theorem Extension.lastPage (e : Extension) (hd : ¬ ps ∣ e.prefixLen)
    (hmod : (e.lastLoc + 1) % (ps : Int) = ((e.prefixLen % ps : Nat) : Int)) : ∃ old : List Slot,
      Covers ps old [e.lastLoc / (ps : Int)] ∧ old.length = e.prefixLen % ps ∧
        old.getLast? = some e.lastLoc := by
  have hlt := Nat.mod_lt e.prefixLen hn
  obtain ⟨m, hm⟩ : ∃ m, e.prefixLen % ps = m + 1 :=
    Nat.exists_eq_succ_of_ne_zero fun h0 => hd (Nat.dvd_of_mod_eq_zero h0)
  have hone : numPagesOf ps (m + 1) = 1 := (Nat.div_eq_iff hn).mpr (by omega)
  have hplace : e.lastLoc = e.lastLoc / (ps : Int) * (ps : Int) + (m : Int) :=
    slot_of_succ_emod (by omega) (hm ▸ hmod)
  refine ⟨(range (m + 1)).map fun o : Nat => e.lastLoc / (ps : Int) * (ps : Int) +
    ((o % ps : Nat) : Int), ?_, by simp [hm], ?_⟩
  · refine Covers.slots (f := fun _ => e.lastLoc / (ps : Int)) hn (by simp [hone]) ?_
    intro i hi
    have : i = 0 := by simpa using hi
    rw [this]
    rfl
  · rw [range_succ, map_append, map_singleton, getLast?_concat,
      Nat.mod_eq_of_lt (by omega), ← hplace]

/-- The row of an extension: the part of it that stands in its last page, and then its slots. -/
theorem Extension.row_covers (he : e.prefixLen ≤ e.seqLen)
    (hmod : ¬ ps ∣ e.prefixLen → (e.lastLoc + 1) % (ps : Int) = ((e.prefixLen % ps : Nat) : Int))
    (hfree : e.numNewPages ps ≤ freePages.length) : ∃ old : List Slot,
      old.length = e.prefixLen % ps ∧ Covers ps (old ++ e.slots ps freePages)
        ((if ps ∣ e.prefixLen then [] else [e.lastLoc / (ps : Int)]) ++
          freePages.take (e.numNewPages ps)) := by
  have hdm := Nat.div_add_mod' e.prefixLen ps
  by_cases hd : ps ∣ e.prefixLen
  · have h0 := Nat.mod_eq_zero_of_dvd hd
    rw [if_pos hd]
    exact ⟨[], h0.symm, slots_covers hn (Covers.nil hn) (by rw [length_nil, ← h0, hdm])
      (fun hne => absurd rfl hne) he hfree⟩
  · obtain ⟨old, hpage, hold, hlast⟩ := e.lastPage hn hd (hmod hd)
    rw [if_neg hd]
    exact ⟨old, hold, slots_covers hn hpage (by rw [hold, hdm]) (fun _ => hlast) he hfree⟩

theorem length_kernel {batch : List Extension}
    (hle : ∀ e ∈ batch, e.prefixLen ≤ e.seqLen) (freePages : List Int) :
    (allocExtendKernel ps batch freePages).flatten.length =
      (batch.map fun e => e.seqLen - e.prefixLen).sum := by
  induction batch generalizing freePages with
  | nil => rfl
  | cons e batch ih =>
    rw [allocExtendKernel, flatten_cons, length_append, map_cons, sum_cons,
      e.length_slots hn freePages (hle e mem_cons_self),
      ih fun e' he' => hle e' (mem_cons_of_mem _ he')]

end

end Slots

/-! ### All allocations are extensions -/

theorem Extension.numNewPages_one (e : Extension) : e.numNewPages 1 = e.seqLen - e.prefixLen := by
  simp [Extension.numNewPages, numPagesOf]

theorem map_getD_range {l : List Int} {k : Nat} (hk : k ≤ l.length) :
    (range k).map (fun i => l.getD i 0) = l.take k := by
  refine ext_getElem (by simp [hk]) fun i h₁ h₂ => ?_
  have hi : i < l.length := by
    rw [length_take] at h₂
    omega
  simp [getD_eq_getElem?_getD, getElem?_eq_getElem hi]

variable {freePages : List Int}

/-- With pages of one slot an extension hands out the free pages themselves. -/
theorem Extension.slots_one {e : Extension} (he : e.prefixLen ≤ e.seqLen)
    (hfree : e.seqLen - e.prefixLen ≤ freePages.length) :
    e.slots 1 freePages = freePages.take (e.seqLen - e.prefixLen) := by
  have h₁ : e.numPart1 1 = 0 := by
    simp only [numPart1, numPagesOf, Nat.div_one]
    omega
  rw [slots_eq Nat.one_pos he, h₁, range_zero, map_nil, nil_append, Nat.sub_zero,
    ← map_getD_range hfree]
  simp [Nat.mod_one]

theorem allocExtendKernel_one {batch : List Extension} (he : ∀ e ∈ batch, e.prefixLen ≤ e.seqLen)
    (hfree : (batch.map fun e => e.seqLen - e.prefixLen).sum ≤ freePages.length) :
    PagedAllocator.splitLens (batch.map fun e => e.seqLen - e.prefixLen)
        (freePages.take (batch.map fun e => e.seqLen - e.prefixLen).sum) =
      allocExtendKernel 1 batch freePages := by
  induction batch generalizing freePages with
  | nil => rfl
  | cons e es ih =>
    rw [map_cons, sum_cons] at hfree
    have hroom : (es.map fun e => e.seqLen - e.prefixLen).sum ≤
        (freePages.drop (e.seqLen - e.prefixLen)).length := by
      rw [length_drop]
      omega
    have hrest := ih (fun e' h' => he e' (mem_cons_of_mem _ h')) hroom
    rw [map_cons, sum_cons, PagedAllocator.splitLens, allocExtendKernel,
      e.numNewPages_one, e.slots_one (he e mem_cons_self) (by omega), take_take,
      drop_take, Nat.min_eq_left (Nat.le_add_right _ _), Nat.add_sub_cancel_left, hrest]

/-- A decode step as an extension by one. -/
def DecodeReq.toExtension (d : DecodeReq) : Extension := ⟨d.seqLen - 1, d.seqLen, d.lastLoc⟩

section Decode

variable {ps : Nat} {batch : List DecodeReq}

theorem DecodeReq.numNewPages_eq (hps : 1 < ps) (d : DecodeReq) (hd : 0 < d.seqLen) :
    d.toExtension.numNewPages ps = if d.seqLen % ps = 1 then 1 else 0 := by
  have hpos : 0 < ps := Nat.zero_lt_of_lt hps
  obtain ⟨n, hn⟩ : ∃ n, d.seqLen = n + 1 := ⟨d.seqLen - 1, by omega⟩
  have hmod : (n + 1) % ps = 1 ↔ n % ps = 0 := by
    have hlt : n % ps + 1 ≤ ps := Nat.mod_lt n hpos
    rw [Nat.add_mod, Nat.mod_eq_of_lt hps]
    rcases Nat.lt_or_eq_of_le hlt with hl | he
    · rw [Nat.mod_eq_of_lt hl]
      omega
    · rw [he, Nat.mod_self]
      omega
  simp only [DecodeReq.toExtension, Extension.numNewPages, hn, Nat.add_sub_cancel,
    numPagesOf_succ hpos, numPagesOf_eq hpos n, hmod]
  split_ifs <;> omega

theorem DecodeReq.numNewPages_le_one (hn : 0 < ps) (d : DecodeReq) : d.numNewPages ps ≤ 1 := by
  rw [numNewPages]
  rcases d.seqLen with - | m
  · exact (Nat.sub_self _).trans_le (Nat.zero_le 1)
  · rw [numPagesOf_succ hn, Nat.add_sub_cancel, numPagesOf_eq hn]
    omega

/-- A decode step hands out the slot that the extension by one would. -/
theorem DecodeReq.slots_eq (hn : 0 < ps) (d : DecodeReq) (hd : 0 < d.seqLen)
    (freePages : List Int) : d.toExtension.slots ps freePages =
      [if d.numNewPages ps = 0 then d.lastLoc + 1 else freePages.getD 0 0 * ps] := by
  have hfit : d.numNewPages ps = 0 ↔ d.seqLen ≤ numPagesOf ps (d.seqLen - 1) * ps := by
    rw [numNewPages, Nat.sub_eq_zero_iff_le, ← not_lt, lt_numPagesOf hn, not_lt]
  have hpart : d.toExtension.numPart1 ps =
      min d.seqLen (numPagesOf ps (d.seqLen - 1) * ps) - (d.seqLen - 1) := rfl
  rw [Extension.slots_eq hn (Nat.sub_le d.seqLen 1)]
  simp only [toExtension] at hpart ⊢
  by_cases hnew : d.numNewPages ps = 0
  · -- the token fits into the last page
    have hone : Extension.numPart1 ps ⟨d.seqLen - 1, d.seqLen, d.lastLoc⟩ = 1 := by omega
    have hrest : d.seqLen - (d.seqLen - 1) - 1 = 0 := by omega
    rw [hone, hrest, if_pos hnew]
    simp
  · -- the last page is full
    have hnone : Extension.numPart1 ps ⟨d.seqLen - 1, d.seqLen, d.lastLoc⟩ = 0 := by omega
    have hrest : d.seqLen - (d.seqLen - 1) - 0 = 1 := by omega
    rw [hnone, hrest, if_neg hnew]
    simp

theorem allocDecodeKernel_eq (hps : 1 < ps)
    (hd : ∀ d ∈ batch, 0 < d.seqLen) (freePages : List Int) :
    (allocDecodeKernel ps batch freePages).map (fun x => [x]) =
      allocExtendKernel ps (batch.map DecodeReq.toExtension) freePages := by
  induction batch generalizing freePages with
  | nil => rfl
  | cons d ds ih =>
    rw [allocDecodeKernel, map_cons, map_cons, allocExtendKernel,
      d.slots_eq (Nat.zero_lt_of_lt hps) (hd d mem_cons_self)]
    exact congrArg _ (ih (fun d' h' => hd d' (mem_cons_of_mem _ h')) _)

theorem sum_numNewPages_decode (hps : 1 < ps) (hd : ∀ d ∈ batch, 0 < d.seqLen) :
    ((batch.map DecodeReq.toExtension).map (·.numNewPages ps)).sum =
      (batch.filter fun d => d.seqLen % ps == 1).length := by
  induction batch with
  | nil => rfl
  | cons d ds ih =>
    rw [map_cons, map_cons, sum_cons,
      d.numNewPages_eq hps (hd d mem_cons_self),
      ih fun d' h' => hd d' (mem_cons_of_mem _ h'), filter_cons]
    simp only [beq_iff_eq]
    split_ifs
    · rw [length_cons, Nat.add_comm]
    · rw [Nat.zero_add]

end Decode

namespace PagedAllocator

variable {c : PoolConfig} {a a' : PagedAllocator} {out : List Slot}

/-- The pages that a batch takes from the front of the free list. -/
structure Granted (c : PoolConfig) (a a' : PagedAllocator) (batch : List Extension)
    (outs : List (List Slot)) (free : List Int) : Prop where
  outs_eq : outs = allocExtendKernel c.pageSize batch free
  enough : (batch.map (·.numNewPages c.pageSize)).sum ≤ free.length
  count : ∀ p, a'.count p + (free.take (batch.map (·.numNewPages c.pageSize)).sum).count p =
    a.count p

theorem alloc_one (hps : c.pageSize = 1) {n : Nat}
    (h : a.alloc c n = some (out, a')) : ∃ free : List Int, n ≤ free.length ∧ out = free.take n ∧
      ∀ p, a'.count p + (free.take n).count p = a.count p := by
  simp only [alloc, hps, Nat.div_one] at h
  split_ifs at h with hlt
  cases h
  refine ⟨(a.sortFor c n).freePages, Nat.le_of_not_lt hlt, ?_, fun p => ?_⟩
  · simp [flatMap_singleton']
  · rw [count_drop, count_sortFor]

theorem allocForExtend_spec {batch : List Extension} {outs : List (List Slot)}
    (he : ∀ e ∈ batch, e.prefixLen ≤ e.seqLen)
    (h : a.allocForExtend c batch = some (outs, a')) : ∃ free, Granted c a a' batch outs free := by
  unfold allocForExtend at h
  split_ifs at h with hps
  · obtain ⟨⟨out, a₁⟩, ha, e⟩ := Option.map_eq_some_iff.mp h
    cases e
    obtain ⟨free, hle, rfl, hcount⟩ := alloc_one hps ha
    have hsum : (batch.map (·.numNewPages 1)) = batch.map fun e => e.seqLen - e.prefixLen :=
      map_congr_left fun e _ => e.numNewPages_one
    refine ⟨free, ?_, ?_, fun p => ?_⟩
    · rw [hps]
      exact allocExtendKernel_one he hle
    · rw [hps, hsum]
      exact hle
    · rw [hps, hsum]
      exact hcount p
  · simp only [allocExtend] at h
    split_ifs at h with hlt
    cases h
    exact ⟨_, rfl, Nat.le_of_not_lt hlt, fun p => by rw [count_drop, count_sortFor]⟩

theorem allocForDecode_spec {batch : List DecodeReq}
    (hd : ∀ d ∈ batch, 0 < d.seqLen) (h : a.allocForDecode c batch = some (out, a')) :
    ∃ free, Granted c a a' (batch.map DecodeReq.toExtension) (out.map fun x => [x]) free := by
  unfold allocForDecode at h
  split_ifs at h with hps
  · obtain ⟨free, hle, rfl, hcount⟩ := alloc_one hps h
    have hlen : ∀ d ∈ batch, d.toExtension.seqLen - d.toExtension.prefixLen = 1 := by
      intro d hm
      have := hd d hm
      simp only [DecodeReq.toExtension]
      omega
    have hones : (batch.map DecodeReq.toExtension).map (fun e => e.seqLen - e.prefixLen) =
        replicate batch.length 1 := by
      rw [map_map]
      exact eq_replicate_iff.mpr ⟨by simp, fun x hx => by
        obtain ⟨d, hm, rfl⟩ := mem_map.mp hx
        exact hlen d hm⟩
    have hsum : ((batch.map DecodeReq.toExtension).map (·.numNewPages 1)) =
        replicate batch.length 1 := by
      rw [← hones]
      exact map_congr_left fun e _ => e.numNewPages_one
    have htotal : (replicate batch.length 1).sum = batch.length := by simp
    refine ⟨free, ?_, ?_, fun p => ?_⟩
    · have hext : ∀ e ∈ batch.map DecodeReq.toExtension, e.prefixLen ≤ e.seqLen := by
        intro e he
        obtain ⟨d, -, rfl⟩ := mem_map.mp he
        exact Nat.sub_le _ _
      have hroom : ((batch.map DecodeReq.toExtension).map fun e => e.seqLen - e.prefixLen).sum ≤
          free.length := by
        rw [hones, htotal]
        exact hle
      rw [hps, ← allocExtendKernel_one hext hroom, hones, htotal]
      have hsplit : ∀ (n : Nat) (l : List Slot), n ≤ l.length →
          splitLens (replicate n 1) (l.take n) = (l.take n).map fun x => [x] := by
        intro n
        induction n with
        | zero => intro l _; rfl
        | succ n ih =>
          intro l hl
          cases l with
          | nil => simp at hl
          | cons x l =>
            exact congrArg _ (ih l (by simpa using hl))
      exact (hsplit _ _ hle).symm
    · rw [hps, hsum, htotal]
      exact hle
    · rw [hps, hsum, htotal]
      exact hcount p
  · have hgt : 1 < c.pageSize := by
      have := c.pageSize_pos
      omega
    simp only [allocDecode] at h
    split_ifs at h with hlt
    cases h
    have hsum := sum_numNewPages_decode hgt hd
    refine ⟨(a.sortFor c batch.length).freePages, allocDecodeKernel_eq hgt hd _, ?_, fun p => ?_⟩
    · rw [hsum]
      exact Nat.le_of_not_lt hlt
    · rw [hsum, count_drop, count_sortFor]

end PagedAllocator

end SglangRuntime
