import SglangRuntime.MemCache.SwaPool.Model

/-!
# Memory cache — rows of full and SWA pages

An extension takes the same places in both pools: the new slots are those at places `lo, …, hi - 1` of
the row of the last page and the new pages (`slots_eq_rowSlots`).  So the mapping, described page by page,
grows with the rows, and a page that is handed out in part is mapped as far as it is handed out
(`extend_row`, `extend_batch`).
-/

namespace SglangRuntime.SwaPool

open Foundation List

variable {c : SwaConfig} {filled filled' : Int → Nat} {V V' V'' : TableView} {m : Int → Int}
  {e : Extension} {p q : Int} {ps : Nat} {free pages freeFull freeSwa : List Int} {lastPage : Int}

variable (pageSize : Nat)

/-- The pages that an extension is in: the partial last page and the new pages. -/
def rowOf (e : Extension) (lastPage : Int) (free : List Int) : List Int :=
  (if pageSize ∣ e.prefixLen then [] else [lastPage]) ++ free.take (e.numNewPages pageSize)

/-- The place behind an extension, counted from the start of its row of pages. -/
def rowEnd (e : Extension) : Nat :=
  e.prefixLen % pageSize + (e.seqLen - e.prefixLen)

theorem slots_eq_rowSlots (hn : 0 < ps) (he : e.prefixLen ≤ e.seqLen)
    (hmod : ¬ ps ∣ e.prefixLen → (e.lastLoc + 1) % (ps : Int) = ((e.prefixLen % ps : Nat) : Int))
    (hfree : e.numNewPages ps ≤ free.length) :
    e.slots ps free = rowSlots ps (rowOf ps e (e.lastLoc / (ps : Int)) free) (e.prefixLen % ps)
        (rowEnd ps e) ∧
      (rowOf ps e (e.lastLoc / (ps : Int)) free).length = numPagesOf ps (rowEnd ps e) := by
  obtain ⟨old, hold, hcov⟩ := e.row_covers hn he hmod hfree
  have hlen := e.length_slots hn free he
  have hend : (old ++ e.slots ps free).length = rowEnd ps e := by
    rw [length_append, hlen, hold, rowEnd]
  have hrow := hcov.drop_eq_rowSlots old.length
  have hpages := hcov.length
  rw [hend] at hrow hpages
  rw [drop_left, hold] at hrow
  exact ⟨hrow, hpages⟩

/-! ### Held pages and the mapping -/

/-- The description of the mapping fits what is handed out: a page that is handed out in part is mapped as
far. -/
structure ViewOk (c : SwaConfig) (filled : Int → Nat) (V : TableView) : Prop where
  separate : V.Separate
  filled_le : ∀ p, filled p ≤ c.pageSize
  mapped_le : ∀ p, V.mapped p ≤ c.pageSize
  partialPage : ∀ p, 0 < filled p → filled p < c.pageSize → V.mapped p = filled p

/-- New full pages `newFull` are handed out, and SWA pages `newSwa` are mapped to. -/
structure Growth (filled : Int → Nat) (V : TableView) (filled' : Int → Nat) (V' : TableView)
    (newFull newSwa : List Int) : Prop where
  owns : ∀ q, V'.Owns q ↔ V.Owns q ∨ q ∈ newSwa
  same : ∀ p, p ∉ newFull → filled p = 0 → filled' p = 0 ∧ V'.mapped p = V.mapped p
  kept : ∀ p, 0 < filled p → 0 < filled' p

theorem Growth.refl : Growth filled V filled V [] [] :=
  ⟨fun q => by simp, fun _ _ h => ⟨h, rfl⟩, fun _ h => h⟩

theorem Growth.trans {filled'' : Int → Nat} {newFull newSwa newFull' newSwa' : List Int}
    (h : Growth filled V filled' V' newFull newSwa)
    (h' : Growth filled' V' filled'' V'' newFull' newSwa') :
    Growth filled V filled'' V'' (newFull ++ newFull') (newSwa ++ newSwa') where
  owns q := by rw [h'.owns, h.owns, mem_append, or_assoc]
  same p hp h0 := by
    rw [mem_append, not_or] at hp
    obtain ⟨h₁, h₂⟩ := h.same p hp.1 h0
    obtain ⟨h₃, h₄⟩ := h'.same p hp.2 h₁
    exact ⟨h₃, h₄.trans h₂⟩
  kept p hp := h'.kept p (h.kept p hp)

@[simp] theorem fill_nil : fill c filled [] = filled := by
  funext p
  simp [fill]

/-- What a row adds to the pages it is in. -/
theorem fill_rowSlots {lo hi : Nat} (hok : ViewOk c filled V) (hnd : pages.Nodup)
    (hlen : pages.length = numPagesOf c.pageSize hi) (hle : lo ≤ hi)
    (hlo : ∀ j (hj : j < pages.length), filled pages[j] = min c.pageSize (lo - j * c.pageSize)) :
    let filled' := fill c filled (rowSlots c.pageSize pages lo hi)
    (∀ j (hj : j < pages.length), filled' pages[j] = min c.pageSize (hi - j * c.pageSize)) ∧
      (∀ p ∉ pages, filled' p = filled p) ∧ ∀ p, filled' p ≤ c.pageSize := by
  intro filled'
  have hn := c.pageSize_pos
  have hin : ∀ j (hj : j < pages.length), filled' pages[j] =
      min c.pageSize (hi - j * c.pageSize) := fun j hj => by
    unfold filled' fill
    rw [hlo j hj, Nat.add_comm]
    exact countP_rowSlots hn hnd hj hlen.ge hle
  have hout : ∀ p ∉ pages, filled' p = filled p := fun p hp => by
    unfold filled' fill
    rw [countP_rowSlots_of_notMem hn hp hlen.ge, Nat.add_zero]
  refine ⟨hin, hout, fun p => ?_⟩
  by_cases hp : p ∈ pages
  · obtain ⟨j, hj, rfl⟩ := getElem_of_mem hp
    rw [hin j hj]
    exact Nat.min_le_left _ _
  · rw [hout p hp]
    exact hok.filled_le p

theorem nodup_rowOf (hnd : (free.take (e.numNewPages ps)).Nodup)
    (hlast : ¬ ps ∣ e.prefixLen → lastPage ∉ free.take (e.numNewPages ps)) :
    (rowOf ps e lastPage free).Nodup := by
  unfold rowOf
  split_ifs with hd
  · exact hnd
  · exact nodup_cons.mpr ⟨hlast hd, hnd⟩

theorem drop_rowOf (hn : 0 < ps) (free : List Int) (lastPage : Int) :
    (rowOf ps e lastPage free).drop (numPagesOf ps (e.prefixLen % ps)) =
      free.take (e.numNewPages ps) := by
  unfold rowOf
  split_ifs with hd
  · rw [Nat.mod_eq_zero_of_dvd hd, numPagesOf_zero hn]
    rfl
  · have hlt := Nat.mod_lt e.prefixLen hn
    have hone : numPagesOf ps (e.prefixLen % ps) = 1 := (Nat.div_eq_iff hn).mpr (by omega)
    rw [hone]
    rfl

/-- The pages of the row of an extension: the first is the partial page, the others are new. -/
theorem rowOf_cases (hn : 0 < ps) {j : Nat} (hj : j < (rowOf ps e lastPage free).length) :
    (¬ ps ∣ e.prefixLen ∧ j = 0 ∧ (rowOf ps e lastPage free)[j] = lastPage) ∨
      ((rowOf ps e lastPage free)[j] ∈ free.take (e.numNewPages ps) ∧
        e.prefixLen % ps ≤ j * ps) := by
  by_cases hd : ps ∣ e.prefixLen
  · refine .inr ⟨?_, ?_⟩
    · have hmem := getElem_mem hj
      unfold rowOf at hmem ⊢
      simpa [hd] using hmem
    · rw [Nat.mod_eq_zero_of_dvd hd]
      exact Nat.zero_le _
  · have hrow : rowOf ps e lastPage free = lastPage :: free.take (e.numNewPages ps) := by
      rw [rowOf, if_neg hd]
      rfl
    cases j with
    | zero => exact .inl ⟨hd, rfl, by simp [hrow]⟩
    | succ j =>
      refine .inr ⟨?_, ?_⟩
      · simp only [hrow, getElem_cons_succ]
        exact getElem_mem _
      · have h₁ := Nat.mod_lt e.prefixLen hn
        have h₂ := Nat.le_mul_of_pos_left ps (show 0 < j + 1 by omega)
        omega

/-- The translation of the last location of a row: the same place of the page that is mapped to. -/
theorem translate_last (hrep : Represents c.pageSize m V) (hok : ViewOk c filled V)
    (hc : Continues c filled e) (hd : ¬ c.pageSize ∣ e.prefixLen)
    (hpos : 0 ≤ e.lastLoc / (c.pageSize : Int)) :
    V.mapped (e.lastLoc / (c.pageSize : Int)) = e.prefixLen % c.pageSize ∧
      m e.lastLoc / (c.pageSize : Int) = V.target (e.lastLoc / (c.pageSize : Int)) ∧
      (m e.lastLoc + 1) % (c.pageSize : Int) = ((e.prefixLen % c.pageSize : Nat) : Int) := by
  have hn := c.pageSize_pos
  obtain ⟨hfill, hmod⟩ := hc.last hd
  have hlt := Nat.mod_lt e.prefixLen hn
  obtain ⟨o, ho⟩ : ∃ o, e.prefixLen % c.pageSize = o + 1 :=
    Nat.exists_eq_succ_of_ne_zero fun h0 => hd (Nat.dvd_of_mod_eq_zero h0)
  have hmap := hok.partialPage _ (by rw [hfill, ho]; omega) (by rw [hfill]; exact hlt)
  rw [hfill] at hmap
  obtain ⟨x, hlast⟩ : ∃ x : Int, e.lastLoc = x := ⟨_, rfl⟩
  rw [hlast] at hmod hmap hpos ⊢
  have hx : x = x / (c.pageSize : Int) * (c.pageSize : Int) + (o : Int) :=
    slot_of_succ_emod (by omega) (ho ▸ hmod)
  have hdm := slot_div_mod (n := c.pageSize) (x / (c.pageSize : Int)) (show o < c.pageSize by omega)
  rw [← hx] at hdm
  have hx0 : 0 ≤ x := by
    have := Int.mul_nonneg hpos (Int.natCast_nonneg c.pageSize)
    omega
  have hval := hrep x hx0
  rw [hdm.2, hmap, ho, if_pos (by push_cast; omega)] at hval
  refine ⟨hmap, ?_, ?_⟩
  · rw [hval]
    exact (slot_div_mod _ (show o < c.pageSize by omega)).1
  have hnext : m x + 1 = V.target (x / (c.pageSize : Int)) * (c.pageSize : Int) +
      ((o + 1 : Nat) : Int) := by
    omega
  rw [hnext, ho]
  exact (slot_div_mod _ (show o + 1 < c.pageSize by omega)).2

/-! ### Extensions -/

/-- The free pages of both sides: no caller has been handed a full page, and no SWA page is mapped to. -/
structure Fresh (filled : Int → Nat) (V : TableView) (freeFull freeSwa : List Int) : Prop where
  nodupFull : freeFull.Nodup
  nodupSwa : freeSwa.Nodup
  unfilled : ∀ p ∈ freeFull, filled p = 0
  unmapped : ∀ p ∈ freeFull, V.mapped p = 0
  unowned : ∀ q ∈ freeSwa, ¬ V.Owns q

theorem Fresh.of_sublist {l l' : List Int} (h : Fresh filled V freeFull freeSwa)
    (hl : l.Sublist freeFull) (hl' : l'.Sublist freeSwa) : Fresh filled V l l' :=
  ⟨h.nodupFull.sublist hl, h.nodupSwa.sublist hl', fun p hp => h.unfilled p (hl.subset hp),
    fun p hp => h.unmapped p (hl.subset hp), fun q hq => h.unowned q (hl'.subset hq)⟩

/-- The row of an extension on the full side. -/
theorem fill_slots (hc : Continues c filled e)
    (hnd : freeFull.Nodup) (hunfilled : ∀ p ∈ freeFull, filled p = 0)
    (hfull : e.numNewPages c.pageSize ≤ freeFull.length) :
    let pages := rowOf c.pageSize e (e.lastLoc / (c.pageSize : Int)) freeFull
    pages.Nodup ∧ pages.length = numPagesOf c.pageSize (rowEnd c.pageSize e) ∧
      e.slots c.pageSize freeFull =
        rowSlots c.pageSize pages (e.prefixLen % c.pageSize) (rowEnd c.pageSize e) ∧
      (∀ j (hj : j < pages.length), filled pages[j] =
        min c.pageSize (e.prefixLen % c.pageSize - j * c.pageSize)) ∧
      ∀ p ∈ pages, p ∉ freeFull.take (e.numNewPages c.pageSize) → 0 < filled p := by
  have hn := c.pageSize_pos
  have hlt := Nat.mod_lt e.prefixLen hn
  have hpos : ¬ c.pageSize ∣ e.prefixLen → 0 < e.prefixLen % c.pageSize := fun hd =>
    Nat.pos_of_ne_zero fun h0 => hd (Nat.dvd_of_mod_eq_zero h0)
  obtain ⟨hslots, hlen⟩ := slots_eq_rowSlots hn hc.le (fun hd => (hc.last hd).2) hfull
  refine ⟨nodup_rowOf (hnd.sublist (take_sublist ..)) fun hd hmem => ?_, hlen, hslots,
    fun j hj => ?_, fun p hp hno => ?_⟩
  · have h₁ := hunfilled _ (mem_of_mem_take hmem)
    have h₂ := (hc.last hd).1
    omega
  · rcases rowOf_cases hn hj with ⟨hd, rfl, hget⟩ | ⟨hmem, hle⟩
    · rw [hget, (hc.last hd).1]
      omega
    · rw [hunfilled _ (mem_of_mem_take hmem)]
      omega
  · obtain ⟨j, hj, rfl⟩ := getElem_of_mem hp
    rcases rowOf_cases hn hj with ⟨hd, -, hget⟩ | ⟨hmem, -⟩
    · rw [hget, (hc.last hd).1]
      exact hpos hd
    · exact absurd hmem hno

/-- Entries for a row, when what is handed out of each page in part is as far as the row goes. -/
theorem ViewOk.put {pages' : List Int} {lo hi : Nat} (hok : ViewOk c filled V)
    (hnd : pages.Nodup) (hnd' : pages'.Nodup) (hlen : pages'.length = pages.length)
    (hrow : RowView c.pageSize V pages pages' lo)
    (hnew : ∀ q ∈ pages'.drop (numPagesOf c.pageSize lo), ¬ V.Owns q)
    (hle : ∀ p, filled' p ≤ c.pageSize)
    (hin : ∀ j (hj : j < pages.length), filled' pages[j] < c.pageSize →
      filled' pages[j] = min c.pageSize (hi - j * c.pageSize))
    (hout : ∀ p ∉ pages, filled' p < c.pageSize → filled' p = filled p) :
    ViewOk c filled' (V.put c.pageSize pages pages' hi) := by
  refine ⟨hok.separate.put c.pageSize_pos hnd hlen hnd' hrow hnew, hle, fun p => ?_, fun p h₁ h₂ => ?_⟩
  · by_cases hp : p ∈ pages
    · obtain ⟨j, hj, rfl⟩ := getElem_of_mem hp
      rw [TableView.mapped_put_getElem hnd hj]
      exact Nat.min_le_left _ _
    · exact (if_neg hp).trans_le (hok.mapped_le p)
  · by_cases hp : p ∈ pages
    · obtain ⟨j, hj, rfl⟩ := getElem_of_mem hp
      rw [TableView.mapped_put_getElem hnd hj, hin j hj h₂]
    · have hf := hout p hp h₂
      rw [hf] at h₁ h₂ ⊢
      exact (if_neg hp).trans (hok.partialPage p h₁ h₂)

/-- **One extension**, whose last location is translated to `l`. -/
theorem extend_row {l : Slot} (hrep : Represents c.pageSize m V)
    (hok : ViewOk c filled V) (hc : Continues c filled e) (hpages : ∀ p, 0 < filled p → 0 ≤ p)
    (hfresh : Fresh filled V freeFull freeSwa) (hl : ¬ c.pageSize ∣ e.prefixLen → l = m e.lastLoc)
    (hfull : e.numNewPages c.pageSize ≤ freeFull.length)
    (hswa : e.numNewPages c.pageSize ≤ freeSwa.length) : ∃ V',
      Represents c.pageSize (writeAll m (e.slots c.pageSize freeFull)
        (Extension.slots c.pageSize { e with lastLoc := l } freeSwa)) V' ∧
      ViewOk c (fill c filled (e.slots c.pageSize freeFull)) V' ∧
      Growth filled V (fill c filled (e.slots c.pageSize freeFull)) V'
        (freeFull.take (e.numNewPages c.pageSize)) (freeSwa.take (e.numNewPages c.pageSize)) ∧
      ∀ p ∉ rowOf c.pageSize e (e.lastLoc / (c.pageSize : Int)) freeFull,
        fill c filled (e.slots c.pageSize freeFull) p = filled p ∧ V'.mapped p = V.mapped p ∧
        V'.target p = V.target p := by
  have hn := c.pageSize_pos
  have hlt := Nat.mod_lt e.prefixLen hn
  have hnew := hfresh.of_sublist (take_sublist (e.numNewPages c.pageSize) freeFull)
    (take_sublist (e.numNewPages c.pageSize) freeSwa)
  -- the partial page, and the page it is mapped to
  have hlast : ¬ c.pageSize ∣ e.prefixLen →
      filled (e.lastLoc / (c.pageSize : Int)) = e.prefixLen % c.pageSize ∧
      V.mapped (e.lastLoc / (c.pageSize : Int)) = e.prefixLen % c.pageSize ∧
      l / (c.pageSize : Int) = V.target (e.lastLoc / (c.pageSize : Int)) ∧
      (l + 1) % (c.pageSize : Int) = ((e.prefixLen % c.pageSize : Nat) : Int) ∧
      0 < e.prefixLen % c.pageSize := by
    intro hd
    have hpos : 0 < e.prefixLen % c.pageSize :=
      Nat.pos_of_ne_zero fun h0 => hd (Nat.dvd_of_mod_eq_zero h0)
    have hfill := (hc.last hd).1
    have ht := translate_last hrep hok hc hd (hpages _ (by rw [hfill]; exact hpos))
    rw [hl hd]
    exact ⟨hfill, ht.1, ht.2.1, ht.2.2, hpos⟩
  obtain ⟨hnd, hlen, hslots, hlo, hold⟩ := fill_slots hc hfresh.nodupFull hfresh.unfilled hfull
  obtain ⟨hslots', hlen'⟩ := slots_eq_rowSlots (e := { e with lastLoc := l }) hn
    hc.le (fun hd => (hlast hd).2.2.2.1) hswa
  have hrowSwa : rowOf c.pageSize { e with lastLoc := l } (l / (c.pageSize : Int)) freeSwa =
      rowOf c.pageSize e (l / (c.pageSize : Int)) freeSwa := rfl
  have hend : rowEnd c.pageSize { e with lastLoc := l } = rowEnd c.pageSize e := rfl
  rw [hrowSwa, hend] at hslots' hlen'
  have hnd' : (rowOf c.pageSize e (l / (c.pageSize : Int)) freeSwa).Nodup :=
    nodup_rowOf hnew.nodupSwa fun hd hmem => by
      obtain ⟨-, h₁, h₂, -, h₃⟩ := hlast hd
      exact hnew.unowned _ hmem ⟨_, by omega, h₂.symm⟩
  have hrow : RowView c.pageSize V (rowOf c.pageSize e (e.lastLoc / (c.pageSize : Int)) freeFull)
      (rowOf c.pageSize e (l / (c.pageSize : Int)) freeSwa) (e.prefixLen % c.pageSize) := by
    intro j hj
    rcases rowOf_cases hn hj with ⟨hd, rfl, hget⟩ | ⟨hmem, hle⟩
    · obtain ⟨-, h₁, h₂, -, -⟩ := hlast hd
      rw [hget, h₁]
      refine ⟨by omega, fun _ => ?_⟩
      rw [← h₂, rowOf, if_neg hd]
      rfl
    · rw [hnew.unmapped _ hmem]
      exact ⟨by omega, fun h => absurd h (by omega)⟩
  have hdrop := drop_rowOf (e := e) hn freeSwa (l / (c.pageSize : Int))
  have hle : e.prefixLen % c.pageSize ≤ rowEnd c.pageSize e := Nat.le_add_right _ _
  obtain ⟨hin, hout, hfle⟩ := fill_rowSlots hok hnd hlen hle hlo
  rw [hslots, hslots']
  refine ⟨_, hrep.write hn hnd hlen hle hrow,
    hok.put hnd hnd' (hlen'.trans hlen.symm) hrow (by rw [hdrop]; exact hnew.unowned) hfle
      (fun j hj _ => hin j hj) (fun p hp _ => hout p hp),
    ⟨fun q => ?_, fun p hp h0 => ?_, fun p hp => ?_⟩, fun p hp => ⟨hout p hp, if_neg hp, if_neg hp⟩⟩
  · rw [TableView.owns_put hn hnd hlen (hlen'.trans hlen.symm) hrow, hdrop]
  · -- a page that was not handed out and is not new is not of the row
    have hno := fun hmem => h0.not_gt (hold p hmem hp)
    exact ⟨(hout p hno).trans h0, if_neg hno⟩
  · exact Nat.lt_of_lt_of_le hp (Nat.le_add_right _ _)

/-- The last page of a later row of the batch is not in the row of an earlier one. -/
theorem notMem_rowOf_of_apart {e' : Extension}
    (hfresh : Fresh filled V freeFull freeSwa) (hc' : Continues c filled e') (ha : Apart c e e')
    (hd' : ¬ c.pageSize ∣ e'.prefixLen) :
    e'.lastLoc / (c.pageSize : Int) ∉
      rowOf c.pageSize e (e.lastLoc / (c.pageSize : Int)) freeFull := by
  have hfill := (hc'.last hd').1
  intro hmem
  rcases mem_append.mp hmem with hmem | hmem
  · split_ifs at hmem with hd
    · exact absurd hmem not_mem_nil
    · exact ha hd hd' (mem_singleton.mp hmem).symm
  · have := hfresh.unfilled _ (mem_of_mem_take hmem)
    omega

/-- **A batch of extensions** on both sides. -/
theorem extend_batch {batch : List Extension} {m₀ : Int → Int}
    (hrep : Represents c.pageSize m V) (hok : ViewOk c filled V)
    (hc : ∀ e ∈ batch, Continues c filled e) (ha : batch.Pairwise (Apart c))
    (hpages : ∀ p, 0 < filled p ∨ p ∈ freeFull → 0 ≤ p) (hfresh : Fresh filled V freeFull freeSwa)
    (hl : ∀ e ∈ batch, ¬ c.pageSize ∣ e.prefixLen → m₀ e.lastLoc = m e.lastLoc)
    (hfull : (batch.map (·.numNewPages c.pageSize)).sum ≤ freeFull.length)
    (hswa : (batch.map (·.numNewPages c.pageSize)).sum ≤ freeSwa.length) : ∃ V',
      Represents c.pageSize (writeAll m (allocExtendKernel c.pageSize batch freeFull).flatten
        (allocExtendKernel c.pageSize (batch.map (swaExtension m₀)) freeSwa).flatten) V' ∧
      ViewOk c (fill c filled (allocExtendKernel c.pageSize batch freeFull).flatten) V' ∧
      Growth filled V (fill c filled (allocExtendKernel c.pageSize batch freeFull).flatten) V'
        (freeFull.take (batch.map (·.numNewPages c.pageSize)).sum)
        (freeSwa.take (batch.map (·.numNewPages c.pageSize)).sum) := by
  have hn := c.pageSize_pos
  induction batch generalizing filled V m freeFull freeSwa with
  | nil =>
    refine ⟨V, hrep, ?_, ?_⟩
    · simpa [allocExtendKernel] using hok
    · simpa [allocExtendKernel] using Growth.refl
  | cons e batch ih =>
    rw [map_cons, sum_cons] at hfull hswa
    obtain ⟨hapart, ha⟩ := pairwise_cons.mp ha
    have hce := hc e mem_cons_self
    obtain ⟨V₁, hrep₁, hok₁, hg₁, hsame⟩ := extend_row hrep hok hce (fun p hp => hpages p (.inl hp))
      hfresh (hl e mem_cons_self) (show e.numNewPages c.pageSize ≤ freeFull.length by omega)
      (show e.numNewPages c.pageSize ≤ freeSwa.length by omega)
    have hrest : Fresh (fill c filled (e.slots c.pageSize freeFull)) V₁
        (freeFull.drop (e.numNewPages c.pageSize)) (freeSwa.drop (e.numNewPages c.pageSize)) := by
      have hd := hfresh.of_sublist (drop_sublist (e.numNewPages c.pageSize) freeFull)
        (drop_sublist (e.numNewPages c.pageSize) freeSwa)
      have hsep : ∀ p ∈ freeFull.drop (e.numNewPages c.pageSize),
          p ∉ freeFull.take (e.numNewPages c.pageSize) := fun p hp hp' =>
        disjoint_take_drop hfresh.nodupFull (Nat.le_refl _) hp' hp
      refine ⟨hd.nodupFull, hd.nodupSwa, fun p hp => ?_, fun p hp => ?_, fun q hq => ?_⟩
      · exact (hg₁.same p (hsep p hp) (hd.unfilled p hp)).1
      · rw [(hg₁.same p (hsep p hp) (hd.unfilled p hp)).2]
        exact hd.unmapped p hp
      · rw [hg₁.owns, not_or]
        exact ⟨hd.unowned q hq, fun hq' =>
          disjoint_take_drop hfresh.nodupSwa (Nat.le_refl _) hq' hq⟩
    have hlater : ∀ e' ∈ batch, ¬ c.pageSize ∣ e'.prefixLen → e'.lastLoc / (c.pageSize : Int) ∉
        rowOf c.pageSize e (e.lastLoc / (c.pageSize : Int)) freeFull := fun e' he' =>
      notMem_rowOf_of_apart hfresh (hc e' (mem_cons_of_mem _ he')) (hapart e' he')
    have hc₁ : ∀ e' ∈ batch, Continues c (fill c filled (e.slots c.pageSize freeFull)) e' := by
      intro e' he'
      have hold := hc e' (mem_cons_of_mem _ he')
      refine ⟨hold.le, fun hd' => ?_⟩
      rw [(hsame _ (hlater e' he' hd')).1]
      exact hold.last hd'
    have hpages₁ : ∀ p, 0 < fill c filled (e.slots c.pageSize freeFull) p ∨
        p ∈ freeFull.drop (e.numNewPages c.pageSize) → 0 ≤ p := by
      rintro p (hp | hp)
      · by_cases h0 : filled p = 0
        · by_cases hmem : p ∈ freeFull.take (e.numNewPages c.pageSize)
          · exact hpages p (.inr (mem_of_mem_take hmem))
          · have := (hg₁.same p hmem h0).1
            omega
        · exact hpages p (.inl (Nat.pos_of_ne_zero h0))
      · exact hpages p (.inr (mem_of_mem_drop hp))
    -- the entries of the last pages of later rows are as they were
    have hl₁ : ∀ e' ∈ batch, ¬ c.pageSize ∣ e'.prefixLen → m₀ e'.lastLoc = writeAll m
        (e.slots c.pageSize freeFull)
        ((swaExtension m₀ e).slots c.pageSize freeSwa) e'.lastLoc := by
      intro e' he' hd'
      rw [writeAll_of_notMem, hl e' (mem_cons_of_mem _ he') hd']
      intro hmem
      have hzero := (hsame _ (hlater e' he' hd')).1
      have hone : 0 < (e.slots c.pageSize freeFull).countP fun x =>
          x / (c.pageSize : Int) == e'.lastLoc / (c.pageSize : Int) :=
        countP_pos_iff.mpr ⟨_, hmem, by simp⟩
      unfold fill at hzero
      omega
    obtain ⟨V₂, hrep₂, hok₂, hg₂⟩ := ih hrep₁ hok₁ hc₁ ha hpages₁ hrest hl₁
      (by rw [length_drop]; omega) (by rw [length_drop]; omega)
    have hlen : (e.slots c.pageSize freeFull).length =
        ((swaExtension m₀ e).slots c.pageSize freeSwa).length := by
      rw [e.length_slots hn freeFull hce.le, (swaExtension m₀ e).length_slots hn freeSwa hce.le]
      rfl
    have hfill : fill c (fill c filled (e.slots c.pageSize freeFull))
        (allocExtendKernel c.pageSize batch (freeFull.drop (e.numNewPages c.pageSize))).flatten =
        fill c filled (e.slots c.pageSize freeFull ++ (allocExtendKernel c.pageSize batch
          (freeFull.drop (e.numNewPages c.pageSize))).flatten) := by
      funext p
      simp only [fill, countP_append, Nat.add_assoc]
    have hnum : (swaExtension m₀ e).numNewPages c.pageSize = e.numNewPages c.pageSize := rfl
    refine ⟨V₂, ?_, ?_, ?_⟩
    · rw [allocExtendKernel, map_cons, allocExtendKernel, flatten_cons, flatten_cons,
        writeAll_append hlen, hnum]
      exact hrep₂
    · rw [allocExtendKernel, flatten_cons, ← hfill]
      exact hok₂
    · rw [allocExtendKernel, flatten_cons, ← hfill, map_cons, sum_cons,
        take_add, take_add]
      exact hg₁.trans hg₂

end SglangRuntime.SwaPool
