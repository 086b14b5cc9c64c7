import SglangRuntime.MemCache.SwaPool.Rows

/-!
# Memory cache — the page allocation kernels

The programs of `alloc_extend_kernel` and `alloc_decode_kernel` as they run, and
`alloc_extend_naive`.  A program reads the lengths of the requests up to its own, sums them over all
lanes, and stores at `out_indices`; a store is a value with its position, and the entries of the free
list that a program loads are listed as well.  The programs of a launch run in any order: no two
stores have the same position.

* `extendProgram_eq`: a program stores the slots of its request (`Extension.slots`), behind those of
  the requests before.
* `naiveRow_eq`: the sequential loop makes the same stores.
* `slots_at`: which slot a position gets.
-/

namespace SglangRuntime.AllocKernels

open Foundation List Extension List

/-- A value and its position in `out_indices`. -/
abbrev Store := Slot × Nat

/-- What a program does: its stores, and the entries of the free list it loads. -/
structure Trace where
  stores : List Store
  loads : List Nat

/-- `tl.load(ptr + tl.arange(0, bs_upper), mask=offset <= pid)`.  A masked lane holds what is in
`junk`, whichever array is read. -/
def maskedLanes (bsUpper pid : Nat) (junk : Nat → Nat) (xs : List Nat) : List Nat :=
  (range bsUpper).map fun i => if i ≤ pid then xs.getD i 0 else junk i

/-- `tl.arange(0, n)` under the mask `offset < bound`. -/
def maskedRange (n bound : Nat) : List Nat := (range n).filter (decide <| · < bound)

/-- `BLOCK_EXTEND`. -/
def blockExtend : Nat := 4096

/-- The offsets of the blocked loop that pass its mask. -/
def blockOffsets (bound : Nat) : List Nat :=
  (range ((bound + blockExtend - 1) / blockExtend)).flatMap fun blockId =>
    ((range blockExtend).map (blockId * blockExtend + ·)).filter (decide <| · < bound)

section Programs

variable (ps bsUpper : Nat) (junk : Nat → Nat) (free : List Int)

/-- The new pages of one lane. -/
def lanePages (seqLen preLen : Nat) : Nat := numPagesOf ps seqLen - numPagesOf ps preLen

variable (batch : List Extension)

/-- One program of `alloc_extend_kernel`. -/
def extendProgram (pid : Nat) : Trace :=
  let seqLens := maskedLanes bsUpper pid junk (batch.map (·.seqLen))
  let preLens := maskedLanes bsUpper pid junk (batch.map (·.prefixLen))
  let e := batch.getD pid ⟨0, 0, 0⟩
  let outputStartLoc := (zipWith (· - ·) seqLens preLens).sum - (e.seqLen - e.prefixLen)
  let newPageStartLoc := (zipWith (lanePages ps) seqLens preLens).sum - e.numNewPages ps
  let part1 := (maskedRange ps (e.numPart1 ps)).map fun o : Nat =>
    (e.lastLoc + 1 + (o : Int), outputStartLoc + o)
  if e.prefixLen + e.numPart1 ps = e.seqLen then ⟨part1, []⟩
  else
    let offsets := blockOffsets (e.numPart2 ps)
    let part2 := offsets.map fun o =>
      (free.getD (newPageStartLoc + o / ps) 0 * ps + ((o % ps : Nat) : Int),
        outputStartLoc + e.numPart1 ps + o)
    let loads2 := offsets.map fun o => newPageStartLoc + o / ps
    if e.prefixLen + e.numPart1 ps + e.numPart2 ps = e.seqLen then ⟨part1 ++ part2, loads2⟩
    else
      let lastPage := newPageStartLoc + e.numNewPages ps - 1
      let part3 := (maskedRange ps (e.numPart3 ps)).map fun o : Nat =>
        (free.getD lastPage 0 * ps + (o : Int),
          outputStartLoc + e.numPart1 ps + e.numPart2 ps + o)
      ⟨part1 ++ (part2 ++ part3), loads2 ++ [lastPage]⟩

/-- One program of `alloc_decode_kernel`; the lanes behind its own have no new token. -/
def decodeProgram (batch : List DecodeReq) (pid : Nat) : Trace :=
  let seqLens := maskedLanes bsUpper pid junk (batch.map (·.seqLen))
  let preLens := seqLens.zipIdx.map fun (n, i) => if i ≤ pid then n - 1 else n
  let d := batch.getD pid ⟨0, 0⟩
  let newPageStartLoc := (zipWith (lanePages ps) seqLens preLens).sum - d.numNewPages ps
  if d.numNewPages ps = 0 then ⟨[(d.lastLoc + 1, pid)], []⟩
  else ⟨[(free.getD newPageStartLoc 0 * ps, pid)], [newPageStartLoc]⟩

/-- `if num: out_indices[start:stop] = values`, which raises on another number of values. -/
def assignSlice (num start stop : Nat) (values : List Slot) : Option (List Store) :=
  if num = 0 then some []
  else if values.length = stop - start then some (values.zipIdx start)
  else none

/-- One turn of the loop of `alloc_extend_naive`; `endPos` and `endNewPages` are the entries of the
running sums. -/
def naiveRow (e : Extension) (endPos endNewPages : Nat) : Option (List Store) := do
  let startPos := endPos - (e.seqLen - e.prefixLen)
  let startNewPages := endNewPages - e.numNewPages ps
  let numFullNewPages : Int := (e.seqLen / ps : Nat) - (numPagesOf ps e.prefixLen : Int)
  let needPage : Int := e.numNewPages ps - numFullNewPages
  let num1 := e.numPart1 ps
  let part1 ← assignSlice num1 startPos (startPos + num1)
    (((range ps).take num1).map fun o : Nat => e.lastLoc + 1 + (o : Int))
  if e.prefixLen + num1 = e.seqLen then return part1
  let num2 := (e.seqLen / ps - numPagesOf ps e.prefixLen) * ps
  let pages := (free.take (endNewPages - needPage).toNat).drop startNewPages
  let part2 ← assignSlice num2 (startPos + num1) (startPos + num1 + num2)
    (pages.flatMap fun p => (range ps).map fun o : Nat => p * ps + (o : Int))
  if e.prefixLen + num1 + num2 = e.seqLen then return part1 ++ part2
  let num3 := e.numPart3 ps
  let part3 ← assignSlice num3 (endPos - num3) endPos
    (((range ps).take num3).map fun o : Nat => free.getD (endNewPages - 1) 0 * ps + (o : Int))
  return part1 ++ (part2 ++ part3)

/-- The loop, with the sums over the requests before. -/
def naiveFrom : List Extension → Nat → Nat → Option (List Store)
  | [], _, _ => some []
  | e :: es, endPos, endNewPages => do
    let row ← naiveRow ps free e (endPos + (e.seqLen - e.prefixLen)) (endNewPages + e.numNewPages ps)
    let rest ← naiveFrom es (endPos + (e.seqLen - e.prefixLen)) (endNewPages + e.numNewPages ps)
    return row ++ rest

/-- `alloc_extend_naive`. -/
def allocExtendNaive : Option (List Store) := naiveFrom ps free batch 0 0

end Programs

/-! ### Offsets and lanes -/

theorem maskedRange_eq {n bound : Nat} (h : bound ≤ n) : maskedRange n bound = range bound := by
  rw [maskedRange, ← Nat.add_sub_cancel' h, range_add, filter_append,
    filter_eq_self.mpr (by simp), filter_eq_nil_iff.mpr (by simp), append_nil]

theorem flatMap_range_mul (k n : Nat) :
    ((range k).flatMap fun i => (range n).map (i * n + ·)) = range (k * n) := by
  induction k with
  | zero => simp
  | succ k ih => rw [range_succ, flatMap_append, ih, Nat.succ_mul, range_add]; simp

theorem blockOffsets_eq (bound : Nat) : blockOffsets bound = range bound := by
  have hle : bound ≤ (bound + blockExtend - 1) / blockExtend * blockExtend :=
    le_numPagesOf_mul (by decide) bound
  rw [← maskedRange_eq hle, maskedRange, ← flatMap_range_mul, filter_flatMap]
  rfl

theorem zipIdx_map_range {α : Type} (f : Nat → α) (n k : Nat) :
    ((range n).map f).zipIdx k = (range n).map fun o => (f o, k + o) := by
  refine ext_getElem (by simp) fun i h₁ h₂ => ?_
  simp

/-- The lanes behind the program's own add nothing. -/
theorem sum_lanes {bsUpper : Nat} (junk : Nat → Nat) {before : List Extension} (e : Extension)
    (after : List Extension) {f : Nat → Nat → Nat} (hf : ∀ n, f n n = 0)
    (hbs : before.length < bsUpper) :
    (zipWith f
        (maskedLanes bsUpper before.length junk ((before ++ e :: after).map (·.seqLen)))
        (maskedLanes bsUpper before.length junk ((before ++ e :: after).map (·.prefixLen)))).sum =
      (before.map fun e => f e.seqLen e.prefixLen).sum + f e.seqLen e.prefixLen := by
  obtain ⟨k, rfl⟩ := Nat.exists_eq_add_of_lt hbs
  rw [maskedLanes, maskedLanes, zipWith_map, zipWith_self]
  generalize hg : (fun i => f (if i ≤ before.length then _ else _) (if i ≤ before.length then _ else _))
    = g
  have hbefore : (range before.length).map g = before.map fun e => f e.seqLen e.prefixLen := by
    refine ext_getElem (by simp) fun i h₁ h₂ => ?_
    have hi : i < before.length := by simpa using h₁
    simp [← hg, hi, hi.le, getD_eq_getElem?_getD, getElem?_append_left]
  have hbehind : ((range k).map (before.length + 1 + ·)).map g = (range k).map fun _ => 0 := by
    rw [map_map]
    refine map_congr_left fun i _ => ?_
    have hgt : ¬ before.length + 1 + i ≤ before.length := by omega
    simp only [← hg, Function.comp_apply, if_neg hgt, hf]
  have hown : g before.length = f e.seqLen e.prefixLen := by
    simp [← hg]
  rw [Nat.add_right_comm, range_add, map_append, sum_append, range_succ,
    map_append, sum_append, hbefore, hbehind, map_singleton, hown]
  simp

/-! ### One request -/

section Request

variable {ps : Nat} {free : List Int} {e : Extension}

theorem numPart1_le (hn : 0 < ps) (e : Extension) : e.numPart1 ps ≤ ps := by
  have hlt : (e.prefixLen + ps - 1) / ps * ps ≤ e.prefixLen + ps - 1 := Nat.div_mul_le_self _ _
  rw [numPart1, numPagesOf]
  omega

theorem numPart3_le (hn : 0 < ps) (e : Extension) : e.numPart3 ps ≤ ps := by
  have hdm := Nat.div_add_mod' e.seqLen ps
  have hlt := Nat.mod_lt e.seqLen hn
  rw [numPart3]
  omega

theorem getD_drop (free : List Int) (q i : Nat) : (free.drop q).getD i 0 = free.getD (q + i) 0 := by
  simp [getD_eq_getElem?_getD]

/-- **A program of the extend kernel** stores the slots of its request behind those of the requests
before, and loads the next pages. -/
theorem extendProgram_eq (hn : 0 < ps) {bsUpper : Nat} (junk : Nat → Nat) (free : List Int)
    {before : List Extension} (after : List Extension) (he : e.prefixLen ≤ e.seqLen)
    (hbs : before.length < bsUpper) :
    let p := extendProgram ps bsUpper junk free (before ++ e :: after) before.length
    let q := (before.map (·.numNewPages ps)).sum
    p.stores = (e.slots ps (free.drop q)).zipIdx
        (before.map fun e => e.seqLen - e.prefixLen).sum ∧
      ∀ k, k ∈ p.loads ↔ q ≤ k ∧ k < q + e.numNewPages ps := by
  intro p q
  have hout := sum_lanes junk e after Nat.sub_self hbs
  have hpages := sum_lanes (f := lanePages ps) junk e after (fun n => Nat.sub_self _) hbs
  have hget : (before ++ e :: after).getD before.length ⟨0, 0, 0⟩ = e := by
    simp [getD_eq_getElem?_getD]
  have hlane : (before.map fun e => lanePages ps e.seqLen e.prefixLen).sum = q := rfl
  have hown : lanePages ps e.seqLen e.prefixLen = e.numNewPages ps := rfl
  simp only [p, extendProgram, hout, hpages, hget, hlane, hown, Nat.add_sub_cancel,
    maskedRange_eq (numPart1_le hn e), maskedRange_eq (numPart3_le hn e), blockOffsets_eq,
    slots, getD_drop]
  rcases le_or_gt e.seqLen (numPagesOf ps e.prefixLen * ps) with hfit | hmore
  · obtain ⟨hall, hnone⟩ := within hn he hfit
    simp only [if_pos hall, append_nil]
    rw [zipIdx_map_range, hnone]
    exact ⟨rfl, fun k => by simp⟩
  obtain ⟨m, hm⟩ := Nat.exists_eq_add_of_le hmore.le
  obtain ⟨hall, -, hpart2, -, hnew⟩ := parts hn hm
  have hdm := Nat.div_add_mod' m ps
  have hfull : ∀ k, k ∈ (range (e.numPart2 ps)).map (fun o => q + o / ps) ↔
      q ≤ k ∧ k < q + m / ps := fun k => by
    rw [hpart2, mem_map]
    constructor
    · rintro ⟨o, ho, rfl⟩
      have hlt := Nat.div_lt_of_lt_mul (Nat.mul_comm _ ps ▸ mem_range.mp ho)
      exact ⟨Nat.le_add_right _ _, Nat.add_lt_add_left hlt q⟩
    · rintro ⟨hle, hlt⟩
      refine ⟨(k - q) * ps, mem_range.mpr (Nat.mul_lt_mul_of_pos_right (by omega) hn), ?_⟩
      rw [Nat.mul_div_cancel _ hn]
      omega
  have hsome : ¬ e.prefixLen + e.numPart1 ps = e.seqLen := by omega
  rw [numPagesOf_eq hn] at hnew
  simp only [if_neg hsome]
  by_cases h0 : m % ps = 0
  · have hend : e.prefixLen + e.numPart1 ps + e.numPart2 ps = e.seqLen := by omega
    rw [if_pos h0, Nat.add_zero] at hnew
    simp only [if_pos hend, append_nil]
    rw [zipIdx_append, zipIdx_map_range, zipIdx_map_range, length_map, length_range,
      hnew]
    exact ⟨rfl, hfull⟩
  · have hend : ¬ e.prefixLen + e.numPart1 ps + e.numPart2 ps = e.seqLen := by omega
    rw [if_neg h0] at hnew
    simp only [if_neg hend]
    rw [zipIdx_append, zipIdx_append, zipIdx_map_range, zipIdx_map_range,
      zipIdx_map_range, length_map, length_range, length_map, length_range,
      hnew, ← Nat.add_assoc, Nat.add_sub_cancel, Nat.add_sub_cancel]
    refine ⟨rfl, fun k => ?_⟩
    rw [mem_append, hfull, mem_singleton]
    generalize m / ps = full
    omega

theorem assignSlice_eq {n start stop : Nat} {values : List Slot} (hlen : values.length = n)
    (h : stop - start = n) : assignSlice n start stop values = some (values.zipIdx start) := by
  rw [assignSlice]
  split_ifs with h0 hne
  · rw [length_eq_zero_iff.mp (hlen.trans h0)]
    rfl
  · rfl
  · exact absurd (hlen.trans h.symm) hne

/-- Whole pages, as the kernel lists their slots. -/
theorem flatMap_pages (hn : 0 < ps) {full : Nat} (hfree : full ≤ free.length) :
    ((free.take full).flatMap fun p => (range ps).map fun o : Nat => p * ps + (o : Int)) =
      (range (full * ps)).map fun o =>
        free.getD (o / ps) 0 * ps + ((o % ps : Nat) : Int) := by
  rw [flatMap_eq_rowSlots hn, rowSlots, length_take, Nat.min_eq_left hfree, Nat.sub_zero,
    range_eq_range']
  refine map_congr_left fun o ho => ?_
  have hlt : o / ps < full :=
    Nat.div_lt_of_lt_mul (Nat.mul_comm full ps ▸ (mem_range'_1.mp ho).2.trans_eq (Nat.zero_add _))
  rw [getD_eq_getElem?_getD, getElem?_take_of_lt hlt, ← getD_eq_getElem?_getD]

/-- **A turn of the sequential loop** makes the same stores. -/
theorem naiveRow_eq (hn : 0 < ps) (he : e.prefixLen ≤ e.seqLen) (p : Nat) {q : Nat}
    (hfree : q + e.numNewPages ps ≤ free.length) :
    naiveRow ps free e (p + (e.seqLen - e.prefixLen)) (q + e.numNewPages ps) =
      some ((e.slots ps (free.drop q)).zipIdx p) := by
  have htake : ∀ n ≤ ps, (range ps).take n = range n := fun n h => by
    rw [take_range, Nat.min_eq_left h]
  simp only [naiveRow, Nat.add_sub_cancel, htake _ (numPart1_le hn e), htake _ (numPart3_le hn e)]
  rw [assignSlice_eq (by simp) (Nat.add_sub_cancel_left ..), Option.bind_eq_bind, Option.bind_some,
    slots]
  rcases le_or_gt e.seqLen (numPagesOf ps e.prefixLen * ps) with hfit | hmore
  · obtain ⟨hall, -⟩ := within hn he hfit
    rw [if_pos hall, if_pos hall, append_nil]
    rfl
  obtain ⟨m, hm⟩ := Nat.exists_eq_add_of_le hmore.le
  obtain ⟨hall, hdiv, hpart2, hpart3, hnew⟩ := parts hn hm
  have hdm := Nat.div_add_mod' m ps
  have hsome : ¬ e.prefixLen + e.numPart1 ps = e.seqLen := by omega
  rw [numPagesOf_eq hn] at hnew
  have hstop : (((q + e.numNewPages ps : Nat) : Int) - ((e.numNewPages ps : Int) -
      (((e.seqLen / ps : Nat) : Int) - (numPagesOf ps e.prefixLen : Int)))).toNat = q + m / ps := by
    rw [hdiv]
    generalize m / ps = full
    omega
  have hroom : m / ps ≤ (free.drop q).length := by
    rw [length_drop]
    omega
  rw [if_neg hsome, if_neg hsome, hstop, drop_take, Nat.add_sub_cancel_left, hdiv,
    Nat.add_sub_cancel_left, flatMap_pages hn hroom, ← hpart2,
    assignSlice_eq (by simp) (Nat.add_sub_cancel_left ..), Option.bind_some, zipIdx_append,
    length_map, length_range]
  by_cases h0 : m % ps = 0
  · have hend : e.prefixLen + e.numPart1 ps + e.numPart2 ps = e.seqLen := by omega
    rw [if_pos hend, if_pos hend, append_nil]
    rfl
  have hend : ¬ e.prefixLen + e.numPart1 ps + e.numPart2 ps = e.seqLen := by omega
  have hstart : p + (e.seqLen - e.prefixLen) - e.numPart3 ps =
      p + e.numPart1 ps + e.numPart2 ps := by
    omega
  have hlast : q + e.numNewPages ps - 1 = q + (e.numNewPages ps - 1) :=
    Nat.add_sub_assoc (by rw [hnew, if_neg h0]; exact Nat.le_add_left 1 _) q
  rw [if_neg hend, if_neg hend, assignSlice_eq (by simp) (by omega), hstart, hlast, ← getD_drop,
    zipIdx_append, length_map, length_range]
  rfl

/-- **Which slot a position gets**: its place in the last page of the request, or in the next page
of the free list. -/
theorem slots_at (hn : 0 < ps) (he : e.prefixLen ≤ e.seqLen)
    (hmod : ¬ ps ∣ e.prefixLen → (e.lastLoc + 1) % (ps : Int) = ((e.prefixLen % ps : Nat) : Int))
    (hfree : e.numNewPages ps ≤ free.length) {pos : Nat} (hlo : e.prefixLen ≤ pos)
    (hhi : pos < e.seqLen) :
    (e.slots ps free)[pos - e.prefixLen]? = some
      ((if pos / ps < numPagesOf ps e.prefixLen then e.lastLoc / (ps : Int)
        else free.getD (pos / ps - numPagesOf ps e.prefixLen) 0) * ps + ((pos % ps : Nat) : Int)) := by
  obtain ⟨hrow, -⟩ := SwaPool.slots_eq_rowSlots hn he hmod hfree
  have hdm := Nat.div_add_mod' e.prefixLen ps
  have hpos : e.prefixLen % ps + (pos - e.prefixLen) + e.prefixLen / ps * ps = pos := by omega
  have hdiv : (e.prefixLen % ps + (pos - e.prefixLen)) / ps + e.prefixLen / ps = pos / ps := by
    rw [← Nat.add_mul_div_right _ _ hn, hpos]
  have hmod' : (e.prefixLen % ps + (pos - e.prefixLen)) % ps = pos % ps := by
    rw [← Nat.add_mul_mod_self_right _ (e.prefixLen / ps), hpos]
  have hnew : pos / ps < numPagesOf ps e.seqLen := div_lt_numPagesOf hn hhi
  have hceil := numPagesOf_eq hn e.prefixLen
  rw [hrow, getElem?_rowSlots _ (by rw [SwaPool.rowEnd]; omega), hmod', SwaPool.rowOf]
  congr 3
  generalize (e.prefixLen % ps + (pos - e.prefixLen)) / ps = idx at hdiv ⊢
  rcases Nat.eq_zero_or_pos (e.prefixLen % ps) with h0 | h0
  · rw [if_pos h0] at hceil
    rw [if_pos (Nat.dvd_of_mod_eq_zero h0), nil_append, if_neg (by omega),
      getD_eq_getElem?_getD, getElem?_take_of_lt (by rw [numNewPages]; omega),
      ← getD_eq_getElem?_getD]
    congr 1
    omega
  · rw [if_neg h0.ne'] at hceil
    rw [if_neg fun hd => h0.ne' (Nat.mod_eq_zero_of_dvd hd)]
    rcases idx with - | i
    · rw [if_pos (by omega)]
      rfl
    rw [if_neg (by omega), singleton_append, getD_cons_succ,
      getD_eq_getElem?_getD, getElem?_take_of_lt (by rw [numNewPages]; omega),
      ← getD_eq_getElem?_getD]
    congr 1
    omega

end Request

/-! ### A launch -/

section Launch

variable {ps : Nat} {free : List Int} {bsUpper : Nat}

def tokensOf (batch : List Extension) : Nat := (batch.map fun e => e.seqLen - e.prefixLen).sum

/-- `get_num_new_pages`. -/
def getNumNewPages (ps : Nat) (batch : List Extension) : Nat := (batch.map (·.numNewPages ps)).sum

variable (program : Nat → Trace)

/-- The stores of all programs, in the order of the programs. -/
def launchStores (n : Nat) : List Store :=
  (range n).flatMap fun pid => (program pid).stores

def launchLoads (n : Nat) : List Nat :=
  (range n).flatMap fun pid => (program pid).loads

theorem extend_launch (hn : 0 < ps) (junk : Nat → Nat) (free : List Int)
    (before : List Extension) {after : List Extension} (hle : ∀ e ∈ after, e.prefixLen ≤ e.seqLen)
    (hbs : (before ++ after).length ≤ bsUpper) :
    let p := extendProgram ps bsUpper junk free (before ++ after)
    let pids := range' before.length after.length
    (pids.flatMap fun pid => (p pid).stores) =
        (allocExtendKernel ps after (free.drop (getNumNewPages ps before))).flatten.zipIdx
          (tokensOf before) ∧
      ∀ k, k ∈ pids.flatMap (fun pid => (p pid).loads) ↔
        getNumNewPages ps before ≤ k ∧ k < getNumNewPages ps before + getNumNewPages ps after := by
  induction after generalizing before with
  | nil => exact ⟨rfl, fun k => by simp [getNumNewPages]⟩
  | cons e after ih =>
    have he := hle e mem_cons_self
    have hlt : before.length < bsUpper := by
      rw [length_append, length_cons] at hbs
      omega
    obtain ⟨hstores, hloads⟩ := extendProgram_eq hn junk free after he hlt
    obtain ⟨hrest, hrestLoads⟩ := ih (before ++ [e])
      (fun e' h' => hle e' (mem_cons_of_mem e h')) (by simpa using hbs)
    have hpages : getNumNewPages ps (before ++ [e]) = getNumNewPages ps before + e.numNewPages ps := by
      simp [getNumNewPages]
    have htokens : tokensOf (before ++ [e]) = tokensOf before + (e.seqLen - e.prefixLen) := by
      simp [tokensOf]
    rw [append_assoc, singleton_append, length_append, length_singleton,
      hpages] at hrest hrestLoads
    intro p pids
    refine ⟨?_, fun k => ?_⟩
    · rw [htokens] at hrest
      simp only [p, pids, length_cons, range'_succ, flatMap_cons]
      rw [hrest, hstores, allocExtendKernel, flatten_cons, zipIdx_append,
        e.length_slots hn _ he, drop_drop]
      rfl
    · have hcons : getNumNewPages ps (e :: after) = e.numNewPages ps + getNumNewPages ps after := by
        simp [getNumNewPages]
      simp only [p, pids, length_cons, range'_succ, flatMap_cons]
      rw [mem_append, hloads, hrestLoads, hcons]
      change getNumNewPages ps before ≤ k ∧ k < getNumNewPages ps before + _ ∨ _ ↔ _
      omega

theorem naiveFrom_eq (hn : 0 < ps) {batch : List Extension}
    (hle : ∀ e ∈ batch, e.prefixLen ≤ e.seqLen) (p : Nat) {q : Nat}
    (hfree : q + getNumNewPages ps batch ≤ free.length) :
    naiveFrom ps free batch p q =
      some ((allocExtendKernel ps batch (free.drop q)).flatten.zipIdx p) := by
  induction batch generalizing p q with
  | nil => rfl
  | cons e batch ih =>
    have he := hle e mem_cons_self
    have hcons : getNumNewPages ps (e :: batch) = e.numNewPages ps + getNumNewPages ps batch := by
      simp [getNumNewPages]
    rw [naiveFrom, naiveRow_eq hn he p (by omega),
      ih (fun e' h' => hle e' (mem_cons_of_mem e h')) _ (by omega), allocExtendKernel,
      flatten_cons, zipIdx_append, e.length_slots hn _ he, drop_drop]
    rfl

/-! ### Decode -/

/-- The lanes of the prefix lengths are one less up to the program's own. -/
theorem decode_preLens (bsUpper pid : Nat) (junk : Nat → Nat) (batch : List DecodeReq) :
    ((maskedLanes bsUpper pid junk (batch.map (·.seqLen))).zipIdx.map fun (n, i) =>
        if i ≤ pid then n - 1 else n) =
      maskedLanes bsUpper pid junk ((batch.map DecodeReq.toExtension).map (·.prefixLen)) := by
  rw [maskedLanes, zipIdx_map_range, map_map, maskedLanes]
  refine map_congr_left fun i _ => ?_
  by_cases hi : i ≤ pid
  · rcases hget : batch[i]? with - | d <;>
      simp [hi, hget, getD_eq_getElem?_getD, DecodeReq.toExtension]
  · simp [hi]

theorem tokensOf_decode {batch : List DecodeReq} (hpos : ∀ d ∈ batch, 0 < d.seqLen) :
    tokensOf (batch.map DecodeReq.toExtension) = batch.length := by
  have hone : batch.map ((fun e => e.seqLen - e.prefixLen) ∘ DecodeReq.toExtension) =
      batch.map fun _ => 1 := by
    refine map_congr_left fun d hd => ?_
    have := hpos d hd
    simp only [Function.comp_apply, DecodeReq.toExtension]
    omega
  rw [tokensOf, map_map, hone]
  simp

/-- **A program of the decode kernel** does what the extension of its request by one does. -/
theorem decodeProgram_eq (hn : 0 < ps) (junk : Nat → Nat)
    {before after : List DecodeReq} {d : DecodeReq} (hpos : ∀ d' ∈ before ++ d :: after, 0 < d'.seqLen)
    (hbs : before.length < bsUpper) :
    let p := decodeProgram ps bsUpper junk free (before ++ d :: after) before.length
    let q := extendProgram ps bsUpper junk free ((before ++ d :: after).map DecodeReq.toExtension)
      before.length
    p.stores = q.stores ∧ ∀ k, k ∈ p.loads ↔ k ∈ q.loads := by
  have hlen : (before.map DecodeReq.toExtension).length = before.length := length_map _
  have hget : (before ++ d :: after).getD before.length ⟨0, 0⟩ = d := by
    simp [getD_eq_getElem?_getD]
  have hseq : (before ++ d :: after).map (·.seqLen) =
      ((before ++ d :: after).map DecodeReq.toExtension).map (·.seqLen) := by
    rw [map_map]
    rfl
  have hsum := sum_lanes (f := lanePages ps) junk d.toExtension (after.map DecodeReq.toExtension)
    (fun n => Nat.sub_self _) (hlen ▸ hbs)
  obtain ⟨hstores, hloads⟩ := extendProgram_eq (e := d.toExtension) hn junk free
    (after.map DecodeReq.toExtension) (Nat.sub_le d.seqLen 1) (hlen ▸ hbs)
  have htokens := tokensOf_decode fun d' h' => hpos d' (mem_append_left _ h')
  rw [← map_cons, ← map_append, hlen] at hsum hstores hloads
  rw [tokensOf] at htokens
  have hstart : ((before.map DecodeReq.toExtension).map fun e =>
      lanePages ps e.seqLen e.prefixLen).sum + lanePages ps d.toExtension.seqLen d.toExtension.prefixLen -
      d.numNewPages ps = getNumNewPages ps (before.map DecodeReq.toExtension) := Nat.add_sub_cancel ..
  intro p q
  simp only [p, q, hstores, hloads, htokens, decodeProgram, decode_preLens, hget]
  rw [hseq, hsum, hstart]
  change _ = (d.toExtension.slots ps (free.drop (getNumNewPages ps _))).zipIdx _ ∧ ∀ k, _ ↔
    getNumNewPages ps _ ≤ k ∧ k < getNumNewPages ps _ + d.numNewPages ps
  rw [d.slots_eq hn (hpos d (by simp)), getD_drop]
  split_ifs with h0
  · exact ⟨rfl, fun k => by simp [h0]⟩
  · refine ⟨rfl, fun k => ?_⟩
    have hone := d.numNewPages_le_one hn
    rw [mem_singleton]
    omega

/-- Two requests: one continues in its last page, one begins. -/
def twoExtensions : List Extension := [⟨2, 7, 9⟩, ⟨0, 4, -1⟩]

end Launch

end SglangRuntime.AllocKernels
