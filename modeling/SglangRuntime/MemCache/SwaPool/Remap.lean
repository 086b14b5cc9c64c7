import SglangRuntime.MemCache.SwaPool.Invariant

/-!
# Memory cache — SWA tails and pages that are mapped anew

`alloc_extend_swa_tail` hands out a row on the full side and maps its end alone, from a page boundary on:
the pages before are full, so no page that is handed out in part is without entries (`tail_row`).  Whole
pages without entries are mapped by a load-back, and take over the SWA pages of other whole pages when a
node is recovered (`put_whole`).
-/

namespace SglangRuntime.SwaPool

open Foundation PagedAllocator List Int

variable {c : SwaConfig} {filled : Int → Nat} {V : TableView} {m : Int → Int} {e : Extension}
  {a : SwaPool} {p q : Int} {ps : Nat} {freeFull pages : List Int}

/-- New pages as an extension from an empty row. -/
theorem rowSlots_fresh {hi : Nat} (hn : 0 < ps) {free : List Int} {l : Slot}
    (hfree : numPagesOf ps hi ≤ free.length) :
    rowSlots ps (free.take (numPagesOf ps hi)) 0 hi = (Extension.mk 0 hi l).slots ps free := by
  have hnum : (Extension.mk 0 hi l).numNewPages ps = numPagesOf ps hi := by
    simp [Extension.numNewPages, numPagesOf_zero hn]
  have hrow := (slots_eq_rowSlots (e := ⟨0, hi, l⟩) hn (Nat.zero_le _)
    (fun hd => absurd (Nat.dvd_zero ps) hd) (by rw [hnum]; exact hfree)).1
  have hof : rowOf ps ⟨0, hi, l⟩ (l / (ps : Int)) free = free.take (numPagesOf ps hi) := by
    rw [rowOf, if_pos (Nat.dvd_zero ps), hnum]
    rfl
  rw [hrow, hof]
  simp [rowEnd]

/-! ### Tails -/

/-- **A row with a SWA tail** from page `k` of the row on: the head has no entries to clear. -/
theorem tail_row {freeSwa : List Int} {t k : Nat} (hrep : Represents c.pageSize m V)
    (hok : ViewOk c filled V) (hc : Continues c filled e) (hfresh : Fresh filled V freeFull freeSwa)
    (hfull : e.numNewPages c.pageSize ≤ freeFull.length)
    (hswa : numPagesOf c.pageSize t ≤ freeSwa.length) (ht : t ≤ e.seqLen - e.prefixLen)
    (hk : rowEnd c.pageSize e = k * c.pageSize + t) : ∃ V',
      Represents c.pageSize (writeAll m
        ((e.slots c.pageSize freeFull).drop ((e.seqLen - e.prefixLen) - t))
        ((Extension.mk 0 t (-1)).slots c.pageSize freeSwa)) V' ∧
      Represents c.pageSize (clearAll (writeAll m
          ((e.slots c.pageSize freeFull).drop ((e.seqLen - e.prefixLen) - t))
          ((Extension.mk 0 t (-1)).slots c.pageSize freeSwa))
        ((e.slots c.pageSize freeFull).take ((e.seqLen - e.prefixLen) - t))) V' ∧
      ViewOk c (fill c filled (e.slots c.pageSize freeFull)) V' ∧
      Growth filled V (fill c filled (e.slots c.pageSize freeFull)) V'
        (freeFull.take (e.numNewPages c.pageSize)) (freeSwa.take (numPagesOf c.pageSize t)) := by
  have hn := c.pageSize_pos
  have hlt := Nat.mod_lt e.prefixLen hn
  obtain ⟨hnd, hlen, hslots, hlo, hold⟩ := fill_slots hc hfresh.nodupFull hfresh.unfilled hfull
  have hdrop := drop_rowOf (e := e) hn freeFull (e.lastLoc / (c.pageSize : Int))
  generalize rowOf c.pageSize e (e.lastLoc / (c.pageSize : Int)) freeFull = pages at *
  have hle : e.prefixLen % c.pageSize ≤ rowEnd c.pageSize e := Nat.le_add_right _ _
  have hhead : e.prefixLen % c.pageSize + (e.seqLen - e.prefixLen - t) = k * c.pageSize := by
    unfold rowEnd at hk
    omega
  obtain ⟨hin, hout, hfle⟩ := fill_rowSlots hok hnd hlen hle hlo
  rw [hslots, drop_rowSlots, take_rowSlots (by omega), hhead, ← rowSlots_fresh hn hswa]
  -- the tail begins behind the partial page, so its pages are new
  have hpart : numPagesOf c.pageSize (e.prefixLen % c.pageSize) ≤ k := by
    have := numPagesOf_mono (n := c.pageSize) (show e.prefixLen % c.pageSize ≤ k * c.pageSize by omega)
    rwa [numPagesOf_mul hn] at this
  have hnew : ∀ p ∈ pages.drop k, p ∈ freeFull.take (e.numNewPages c.pageSize) := by
    intro p hp
    rw [← hdrop]
    have hsplit : pages.drop k = (pages.drop (numPagesOf c.pageSize (e.prefixLen % c.pageSize))).drop
        (k - numPagesOf c.pageSize (e.prefixLen % c.pageSize)) := by
      rw [drop_drop, Nat.add_sub_cancel' hpart]
    rw [hsplit] at hp
    exact mem_of_mem_drop hp
  have hlenT : (pages.drop k).length = numPagesOf c.pageSize t := by
    rw [length_drop, hlen, hk, numPagesOf_mul_add hn, Nat.add_sub_cancel_left]
  have hlenS : (freeSwa.take (numPagesOf c.pageSize t)).length = (pages.drop k).length := by
    rw [length_take, hlenT, Nat.min_eq_left hswa]
  have hndT := hnd.sublist (drop_sublist k pages)
  have hndS := hfresh.nodupSwa.sublist (take_sublist (numPagesOf c.pageSize t) freeSwa)
  have hrow : RowView c.pageSize V (pages.drop k) (freeSwa.take (numPagesOf c.pageSize t)) 0 := by
    intro j hj
    rw [hfresh.unmapped _ (mem_of_mem_take (hnew _ (getElem_mem hj)))]
    exact ⟨by omega, fun h => absurd h (by omega)⟩
  have hslotsT : rowSlots c.pageSize pages (k * c.pageSize) (rowEnd c.pageSize e) =
      rowSlots c.pageSize (pages.drop k) 0 t := by
    rw [rowSlots_drop hn, hk, Nat.add_zero]
  rw [hslotsT]
  have hwrite := hrep.write hn hndT hlenT (Nat.zero_le t) hrow
  have hmapped : ∀ p ∉ pages.drop k, (V.put c.pageSize (pages.drop k)
      (freeSwa.take (numPagesOf c.pageSize t)) t).mapped p = V.mapped p := fun p hp => if_neg hp
  refine ⟨_, hwrite, hwrite.clear_zero fun x hx hx0 => ?_,
    hok.put hndT hndS hlenS hrow (fun q hq => ?_) hfle (fun i hi hlt => ?_) (fun p hp hlt => ?_),
    ⟨fun q => ?_, fun p hp h0 => ?_, fun p hp => ?_⟩⟩
  · -- the head has no entries
    obtain ⟨i, hi₁, hi₂, rfl⟩ := mem_rowSlots.mp hx
    have hik : i / c.pageSize < k := (Nat.div_lt_iff_lt_mul hn).mpr hi₂
    have hdm := Nat.div_add_mod' i c.pageSize
    have hj : i / c.pageSize < pages.length := by
      rw [hlen, hk, numPagesOf_mul_add hn]
      omega
    have hgetD : pages.getD (i / c.pageSize) 0 = pages[i / c.pageSize] := by
      rw [getD_eq_getElem?_getD, getElem?_eq_getElem hj]
      rfl
    have hno : pages[i / c.pageSize] ∉ pages.drop k := by
      intro hmem
      refine disjoint_take_drop hnd (Nat.le_refl k) ?_ hmem
      refine mem_of_getElem? (i := i / c.pageSize) ?_
      rw [getElem?_take_of_lt hik, getElem?_eq_getElem hj]
    have hval := hwrite _ hx0
    rw [(rowSlots_div_mod hn pages i).1, (rowSlots_div_mod hn pages i).2, hgetD, hmapped _ hno,
      if_neg] at hval
    · rw [hgetD]
      exact hval
    -- the partial page has entries up to the extension
    by_cases h0 : filled pages[i / c.pageSize] = 0
    · have hmem : pages[i / c.pageSize] ∈ freeFull.take (e.numNewPages c.pageSize) := by
        by_contra hno'
        have := hold _ (getElem_mem hj) hno'
        omega
      rw [hfresh.unmapped _ (mem_of_mem_take hmem)]
      omega
    · have hf := hlo _ hj
      have hm := hok.partialPage _ (Nat.pos_of_ne_zero h0) (by omega)
      rw [hm, hf]
      have : ¬ i % c.pageSize < min c.pageSize (e.prefixLen % c.pageSize -
          i / c.pageSize * c.pageSize) := by
        intro hc'
        omega
      exact_mod_cast this
  · rw [numPagesOf_zero hn, drop_zero] at hq
    exact hfresh.unowned q (mem_of_mem_take hq)
  · rw [getElem_drop, hin _ (by rw [length_drop] at hi; omega), hk, Nat.add_mul, Nat.add_sub_add_left]
  · -- a page of the row that is not full is of the tail
    refine hout p fun hmem => ?_
    obtain ⟨j, hj, rfl⟩ := getElem_of_mem hmem
    rw [hin j hj] at hlt
    have hkj : k ≤ j := by
      by_contra hkj
      have := Nat.mul_le_mul_right c.pageSize (Nat.succ_le_of_lt (Nat.lt_of_not_le hkj))
      rw [Nat.succ_mul] at this
      omega
    exact hp (mem_drop_iff_getElem.mpr ⟨j - k, by omega, by simp [Nat.add_sub_cancel' hkj]⟩)
  · rw [TableView.owns_put hn hndT hlenT hlenS hrow, numPagesOf_zero hn, drop_zero]
  · have hno : p ∉ pages := by
      intro hmem
      have := hold p hmem hp
      omega
    rw [hout p hno, hmapped p fun hmem => hno (mem_of_mem_drop hmem)]
    exact ⟨h0, rfl⟩
  · exact Nat.lt_of_lt_of_le hp (Nat.le_add_right _ _)

/-! ### Whole pages -/

theorem pageSlots_eq (hn : 0 < ps) (pages : List Int) :
    pageSlots ps pages = rowSlots ps pages 0 (pages.length * ps) :=
  flatMap_eq_rowSlots hn pages

/-- Whole pages that callers hold get entries. -/
theorem put_whole {pages' : List Int} (hrep : Represents c.pageSize m V)
    (hok : ViewOk c filled V) (hnd : pages.Nodup) (hnd' : pages'.Nodup)
    (hlen : pages'.length = pages.length)
    (hwhole : ∀ p ∈ pages, filled p = c.pageSize ∧ V.mapped p = 0)
    (hnew : ∀ q ∈ pages', ¬ V.Owns q) : ∃ V',
      Represents c.pageSize
        (writeAll m (pageSlots c.pageSize pages) (pageSlots c.pageSize pages')) V' ∧
      ViewOk c filled V' ∧ Growth filled V filled V' [] pages' ∧
      ∀ p ∉ pages, V'.mapped p = V.mapped p := by
  have hn := c.pageSize_pos
  have hpages : pages.length = numPagesOf c.pageSize (pages.length * c.pageSize) :=
    (numPagesOf_mul hn _).symm
  have hrow : RowView c.pageSize V pages pages' 0 := by
    intro j hj
    rw [(hwhole _ (getElem_mem hj)).2]
    exact ⟨by omega, fun h => absurd h (by omega)⟩
  have hdrop : pages'.drop (numPagesOf c.pageSize 0) = pages' := by
    rw [numPagesOf_zero hn, drop_zero]
  have hsame : ∀ p ∉ pages, (V.put c.pageSize pages pages' (pages.length * c.pageSize)).mapped p =
      V.mapped p := fun p hp => if_neg hp
  rw [pageSlots_eq hn, pageSlots_eq hn, hlen]
  refine ⟨_, hrep.write hn hnd hpages (Nat.zero_le _) hrow,
    hok.put hnd hnd' hlen hrow (by rwa [hdrop]) hok.filled_le
      (fun j hj h => absurd (hwhole _ (getElem_mem hj)).1 h.ne) (fun _ _ _ => rfl),
    ⟨fun q => ?_, fun p _ h0 => ⟨h0, ?_⟩, fun _ h => h⟩, hsame⟩
  · rw [TableView.owns_put hn hnd hpages hlen hrow, hdrop]
  · refine hsame p fun hp => ?_
    have := (hwhole p hp).1
    omega

section

variable (h : Core c a filled V)
include h

/-- A page whose first slot has no entry has none. -/
theorem Core.unmapped_of_zero (hp : 0 ≤ p)
    (h0 : a.fullToSwaIndexMapping (p * (c.pageSize : Int)) = 0) : V.mapped p = 0 := by
  have hn := c.pageSize_pos
  by_contra hne
  have hpage := slot_div_mod (n := c.pageSize) p hn
  rw [Int.natCast_zero, Int.add_zero] at hpage
  have hval := h.rep _ (Int.mul_nonneg hp (Int.natCast_nonneg c.pageSize))
  rw [hpage.1, hpage.2, if_pos (by omega), Int.add_zero, h0] at hval
  have := Int.mul_pos (h.target_pos (Nat.pos_of_ne_zero hne)) (show (0 : Int) < c.pageSize by omega)
  omega

/-- A page whose slots all have entries is mapped in whole. -/
theorem Core.mapped_eq_of_ne_zero (hp : 0 ≤ p)
    (hall : ∀ x, x / (c.pageSize : Int) = p → a.fullToSwaIndexMapping x ≠ 0) :
    V.mapped p = c.pageSize := by
  have hn := c.pageSize_pos
  obtain ⟨o, ho⟩ : ∃ o, c.pageSize = o + 1 := Nat.exists_eq_succ_of_ne_zero hn.ne'
  have hdm := slot_div_mod (n := c.pageSize) p (show o < c.pageSize by omega)
  have hx0 : 0 ≤ p * (c.pageSize : Int) + (o : Int) := by
    have := mul_nonneg hp (natCast_nonneg c.pageSize)
    omega
  have hlt := (h.rep.of_mapped hn hx0 (hall _ hdm.1)).1
  rw [hdm.1, hdm.2] at hlt
  have := h.view.mapped_le p
  omega

/-- The entries of pages that are mapped in whole. -/
theorem Core.map_pageSlots
    (hpages : ∀ p ∈ pages, 0 ≤ p ∧ V.mapped p = c.pageSize) :
    (pageSlots c.pageSize pages).map a.fullToSwaIndexMapping =
      pageSlots c.pageSize (pages.map V.target) := by
  simp only [pageSlots, map_flatMap, flatMap_map, map_map]
  refine flatMap_congr fun p hp => map_congr_left fun o ho => ?_
  obtain ⟨hp0, hmap⟩ := hpages p hp
  have hon := mem_range.mp ho
  have hdm := slot_div_mod (n := c.pageSize) p hon
  have hx0 : 0 ≤ p * (c.pageSize : Int) + (o : Int) :=
    add_nonneg (mul_nonneg hp0 (natCast_nonneg c.pageSize)) (natCast_nonneg o)
  have hval := h.rep _ hx0
  rw [hdm.1, hdm.2, hmap, if_pos (by exact_mod_cast hon)] at hval
  exact hval

end

end SglangRuntime.SwaPool
