import SglangRuntime.MemCache.SwaPool.Allocation

/-!
# Memory cache — frees, free groups and pages that are mapped anew

A free returns the full pages and what their entries lead to; inside a group the entries are read when
`free_swa` is called, and for a plain free only at the end of the group, so a page whose entries were
cleared or replaced in between is returned once.
-/

namespace SglangRuntime.SwaPool

open Foundation PagedAllocator List

variable {c : SwaConfig} {s s' : State} {V : TableView} {idx : List Slot} {p q : Int} {a : SwaPool}
  {filled : Int → Nat} {slots : List Slot} {pages : List Int}

/-! ### Giving back -/

theorem pendingFull_append (hg : a.isNotInFreeGroup = false)
    (hsep : ∀ x ∈ idx, x / (c.pageSize : Int) ∉ a.pendingFull c) (p : Int) :
    (pendingFull c { a with freeGroup := a.freeGroup ++ [idx] }).count p =
      (a.pendingFull c).count p + (pageIds c.pageSize idx).count p := by
  have hflat : (a.freeGroup ++ [idx]).flatten = a.freeGroup.flatten ++ idx := by simp
  have hold : a.pendingFull c = pageIds c.pageSize a.freeGroup.flatten := by simp [pendingFull, hg]
  have hnew : pendingFull c { a with freeGroup := a.freeGroup ++ [idx] } =
      pageIds c.pageSize (a.freeGroup.flatten ++ idx) := by
    simp [pendingFull, hg]
  rw [hold] at hsep ⊢
  rw [hnew]
  exact count_pageIds_append hsep p

theorem freeSwa_withFull (a : SwaPool) (full : PagedAllocator) (idx : List Slot) :
    freeSwa c { a with fullAttnAllocator := full } idx =
      { a.freeSwa c idx with fullAttnAllocator := full } := by
  unfold SwaPool.freeSwa
  dsimp only
  split_ifs <;> rfl

theorem giveUp_cases (filled : Int → Nat) (p : Int) :
    giveUp c filled idx p = filled p ∨ giveUp c filled idx p = 0 := by
  unfold giveUp
  split_ifs
  · exact .inr rfl
  · exact .inl rfl

theorem giveUp_pos (hp : 0 < giveUp c filled idx p) : 0 < filled p ∧ ¬ Touched c idx p := by
  unfold giveUp at hp
  split_ifs at hp with ht
  · exact absurd hp (Nat.lt_irrefl 0)
  · exact ⟨hp, ht⟩

/-- The lists have no more pages than the pool. -/
theorem availablePages_le {g : PoolConfig} {a : PagedAllocator} (hle : ∀ p, a.count p ≤ 1)
    (hmem : ∀ p, 0 < a.count p → p ∈ PagedPool.allPages g) : a.availablePages ≤ g.numPages := by
  have hnd : (a.freePages ++ a.releasePages).Nodup := nodup_iff_count_le_one.mpr hle
  have hsub : a.freePages ++ a.releasePages ⊆ PagedPool.allPages g := fun p hp =>
    hmem p (count_pos_iff.mpr hp)
  have := (hnd.subperm hsub).length_le
  simpa [availablePages, PagedPool.allPages, PagedAllocator.clear] using this

/-- The assertions at the end of `free` hold. -/
theorem Core.sizes (h : Core c a filled V) :
    a.fullAttnAllocator.availablePages * c.pageSize ≤ c.size ∧
      a.swaAttnAllocator.availablePages * c.pageSize ≤ c.sizeSwa := by
  constructor
  · have hle : a.fullAttnAllocator.availablePages ≤ c.full.numPages :=
      availablePages_le (fun p => (Nat.le_add_right _ _).trans (h.full_le p))
        fun p hp => h.full_mem p (.inl (Nat.add_pos_left hp _))
    exact (Nat.mul_le_mul_right _ hle).trans (Nat.div_mul_le_self _ _)
  · have hle : a.swaAttnAllocator.availablePages ≤ c.swa.numPages :=
      availablePages_le (fun q => (Nat.le_add_right _ _).trans (h.swa_le q))
        fun q hq => (h.swa_mem q).mp (.inl (Nat.add_pos_left hq _))
    exact (Nat.mul_le_mul_right _ hle).trans (Nat.div_mul_le_self _ _)

theorem freeSwa_frame (a : SwaPool) (idx : List Slot) :
    (a.freeSwa c idx).fullAttnAllocator = a.fullAttnAllocator ∧
      (a.freeSwa c idx).isNotInFreeGroup = a.isNotInFreeGroup ∧
      (a.freeSwa c idx).freeGroup = a.freeGroup ∧
      (a.isNotInFreeGroup → (a.freeSwa c idx).swaFreeGroup = a.swaFreeGroup) ∧
      (a.swaAttnAllocator.Merged c.swa → (a.freeSwa c idx).swaAttnAllocator.Merged c.swa) := by
  unfold SwaPool.freeSwa
  dsimp only
  split_ifs with h0 hg
  · exact ⟨rfl, rfl, rfl, fun _ => rfl, id⟩
  · exact ⟨rfl, rfl, rfl, fun _ => rfl, fun hm => hm.free _⟩
  · exact ⟨rfl, rfl, rfl, fun e => absurd e hg, id⟩

/-- The pages of slots that callers hold go to the full side. -/
theorem Core.returnFull (h : Core c a filled V)
    (hnd : c.pageSize = 1 → idx.Nodup) (hheld : ∀ x ∈ idx, 0 < filled (x / (c.pageSize : Int)))
    {total : Int → Nat} (ht : ∀ p, total p = fullTotal c a p + (pageIds c.pageSize idx).count p) :
    FullOk c total (giveUp c filled idx) := by
  have hids := nodup_pageIds hnd
  have hpos : ∀ p ∈ pageIds c.pageSize idx, 0 < filled p := by
    intro p hp
    obtain ⟨x, hx, rfl⟩ := mem_pageIds.mp hp
    exact hheld x hx
  refine ⟨fun p => ?_, fun p hp => ?_, fun p hp => ?_⟩
  · rw [ht]
    by_cases hmem : p ∈ pageIds c.pageSize idx
    · rw [h.full_sep p (hpos p hmem), count_eq_one_of_mem hids hmem]
    · rw [count_eq_zero.mpr hmem]
      exact h.full_le p
  · by_cases hmem : p ∈ pageIds c.pageSize idx
    · exact h.full_mem p (.inr (hpos p hmem))
    · rw [ht, count_eq_zero.mpr hmem] at hp
      exact h.full_mem p (hp.imp_right fun hp => (giveUp_pos hp).1)
  · obtain ⟨hf, hno⟩ := giveUp_pos hp
    have hmem : p ∉ pageIds c.pageSize idx := fun hmem =>
      hno (mem_map.mpr (mem_pageIds.mp hmem))
    rw [ht, h.full_sep p hf, count_eq_zero.mpr hmem]

theorem count_pageIds_of_not_touched (hp : ¬ Touched c idx p) :
    (pageIds c.pageSize idx).count p = 0 :=
  count_eq_zero.mpr fun hmem => hp (mem_map.mpr (mem_pageIds.mp hmem))

/-- Entries of pages that nobody holds are cleared, and the pages go to the full lists. -/
theorem Core.free (h : Core c a filled V)
    (hidx : ∀ x ∈ idx, 0 ≤ x / (c.pageSize : Int)) (hnd : c.pageSize = 1 → idx.Nodup)
    (hgone : ∀ x ∈ idx, filled (x / (c.pageSize : Int)) = 0)
    (hf : FullOk c (fun p => fullTotal c a p + (pageIds c.pageSize idx).count p) filled) :
    Core c ({ a with fullAttnAllocator := a.fullAttnAllocator.free c.full idx }.freeSwa c idx) filled
      (V.wipe (Touched c idx)) := by
  obtain ⟨hfa, hflag, hgroup, -, -⟩ := freeSwa_frame (c := c) a idx
  have hcore := h.freeSwa hidx hnd fun x hx => .inr (hgone x hx)
  have htotal : ∀ p, fullTotal c { a.freeSwa c idx with
      fullAttnAllocator := a.fullAttnAllocator.free c.full idx } p =
        fullTotal c a p + (pageIds c.pageSize idx).count p := by
    intro p
    have hpend : (pendingFull c { a.freeSwa c idx with
        fullAttnAllocator := a.fullAttnAllocator.free c.full idx }) = a.pendingFull c := by
      simp only [pendingFull, hflag, hgroup]
    rw [fullTotal, hpend, fullTotal, count_freeFull]
    omega
  rw [freeSwa_withFull]
  refine hcore.withFull rfl (fun _ => rfl) (fun _ => .inl rfl) (funext htotal ▸ hf) fun p hp => ?_
  obtain ⟨hpos, hno⟩ := TableView.mapped_wipe_pos.mp hp
  rw [count_freeFull, (h.mapped_held p hpos).1, count_pageIds_of_not_touched hno]

theorem Inv.free (h : Inv c s V) (ok : Allowed c s (.free idx)) :
    ∃ a, s.pool.free c idx = some a ∧ ∃ V', Inv c ⟨a, giveUp c s.filled idx⟩ V' := by
  obtain ⟨hheld, hnd⟩ := ok
  by_cases h0 : idx = []
  · subst h0
    exact ⟨_, rfl, V, h⟩
  have hfull : FullOk c (fun p => fullTotal c s.pool p + (pageIds c.pageSize idx).count p)
      (giveUp c s.filled idx) := h.core.returnFull hnd hheld fun _ => rfl
  rw [SwaPool.free, if_neg h0]
  by_cases hg : s.pool.isNotInFreeGroup
  · rw [if_pos hg]
    have hcore : Core c s.pool (giveUp c s.filled idx) V :=
      h.core.withFull rfl (fun _ => rfl) (giveUp_cases s.filled)
        ⟨h.core.full_le, fun p hp => h.core.full_mem p (hp.imp_right fun hp => (giveUp_pos hp).1),
          fun p hp => h.core.full_sep p (giveUp_pos hp).1⟩ fun p hp => (h.core.mapped_held p hp).1
    have hidx : ∀ x ∈ idx, 0 ≤ x / (c.pageSize : Int) := fun x hx =>
      (Core.nonneg_of_mem (h.core.full_mem _ (.inr (hheld x hx)))).le
    have hfree := hcore.free hidx hnd (fun x hx => if_pos (mem_map_of_mem hx)) hfull
    rw [if_pos hfree.sizes]
    obtain ⟨hfa, hflag, -, hswa, hmerged⟩ := freeSwa_frame (c := c)
      { s.pool with fullAttnAllocator := s.pool.fullAttnAllocator.free c.full idx } idx
    refine ⟨_, rfl, _, hfree, fun _ => (hswa hg).trans (h.group hg), ?_, hmerged h.mergedSwa⟩
    rw [hfa]
    exact h.mergedFull.free idx
  · rw [if_neg hg]
    have hg' : s.pool.isNotInFreeGroup = false := by simpa using hg
    have hsepP : ∀ x ∈ idx, x / (c.pageSize : Int) ∉ s.pool.pendingFull c := by
      intro x hx hin
      have h₁ := h.core.full_sep _ (hheld x hx)
      have h₂ := count_pos_iff.mpr hin
      unfold fullTotal at h₁
      omega
    have htotal : ∀ p, fullTotal c { s.pool with freeGroup := s.pool.freeGroup ++ [idx] } p =
        fullTotal c s.pool p + (pageIds c.pageSize idx).count p := by
      intro p
      rw [fullTotal, pendingFull_append hg' hsepP, fullTotal]
      dsimp only
      omega
    have hcore : Core c { s.pool with freeGroup := s.pool.freeGroup ++ [idx] }
        (giveUp c s.filled idx) V :=
      h.core.withFull rfl (fun _ => rfl) (giveUp_cases s.filled) (funext htotal ▸ hfull)
        fun p hp => (h.core.mapped_held p hp).1
    rw [if_pos hcore.sizes]
    exact ⟨_, rfl, V, hcore, h.group, h.mergedFull, h.mergedSwa⟩

theorem Inv.freeSwa (h : Inv c s V) (ok : Allowed c s (.freeSwa idx)) :
    ∃ V', Inv c ⟨s.pool.freeSwa c idx, s.filled⟩ V' := by
  obtain ⟨hwhole, hnd⟩ := ok
  have hn := c.pageSize_pos
  -- a page that waits in the group is held by nobody
  have hgone : ∀ x ∈ idx, x / (c.pageSize : Int) ∈ s.pool.pendingFull c →
      0 < fullTotal c s.pool (x / (c.pageSize : Int)) := by
    intro x _ hin
    have := count_pos_iff.mpr hin
    unfold fullTotal
    omega
  obtain ⟨hfa, hflag, -, hswa, hmerged⟩ := freeSwa_frame (c := c) s.pool idx
  refine ⟨_, h.core.freeSwa (fun x hx => ?_) hnd fun x hx => ?_, fun hg => ?_, ?_,
    hmerged h.mergedSwa⟩
  · refine (Core.nonneg_of_mem (h.core.full_mem _ ?_)).le
    rcases hwhole x hx with hf | hin
    · exact .inr (by omega)
    · exact .inl (hgone x hx hin)
  · refine (hwhole x hx).imp_right fun hin => ?_
    by_contra hne
    have h₁ := h.core.full_sep _ (Nat.pos_of_ne_zero hne)
    have h₂ := hgone x hx hin
    omega
  · have hg' : s.pool.isNotInFreeGroup := hflag ▸ hg
    exact (hswa hg').trans (h.group hg')
  · rw [hfa]
    exact h.mergedFull

/-! ### Free groups -/

theorem Inv.freeGroupBegin (h : Inv c s V) (hg : s.pool.isNotInFreeGroup) :
    Inv c ⟨s.pool.freeGroupBegin, s.filled⟩ V := by
  have htotal : fullTotal c s.pool.freeGroupBegin = fullTotal c s.pool := by
    funext p
    simp [fullTotal, pendingFull, SwaPool.freeGroupBegin, hg]
  have hswa (q) : swaTotal c s.pool.freeGroupBegin q = swaTotal c s.pool q := by
    simp [swaTotal, pendingSwa, SwaPool.freeGroupBegin, h.group hg]
  exact ⟨h.core.withFull rfl hswa (fun _ => .inl rfl) (htotal ▸ h.core.full) fun p hp =>
    (h.core.mapped_held p hp).1, by rintro ⟨⟩, h.mergedFull, h.mergedSwa⟩

/-- The pending SWA group is returned. -/
theorem Core.flushSwa (h : Core c a filled V) : Core c { a with
      swaFreeGroup := [], swaAttnAllocator := a.swaAttnAllocator.free c.swa a.swaFreeGroup.flatten }
      filled V :=
  h.withFull rfl (fun q => by simp [swaTotal, pendingSwa, count_freeSwa]) (fun _ => .inl rfl) h.full
    fun p hp => (h.mapped_held p hp).1

section

variable (h : Inv c s V)
include h

theorem Inv.freeGroupEnd (hg : s.pool.isNotInFreeGroup = false) :
    ∃ a, s.pool.freeGroupEnd c = some a ∧ ∃ V', Inv c ⟨a, s.filled⟩ V' := by
  have hpend : s.pool.pendingFull c = pageIds c.pageSize s.pool.freeGroup.flatten := by
    simp [pendingFull, hg]
  have hopen : ∀ p, fullTotal c { s.pool with isNotInFreeGroup := true } p =
      s.pool.fullAttnAllocator.count p := by
    intro p
    simp [fullTotal, pendingFull]
  have hall : ∀ p, fullTotal c { s.pool with isNotInFreeGroup := true } p +
      (pageIds c.pageSize s.pool.freeGroup.flatten).count p = fullTotal c s.pool p := by
    intro p
    rw [hopen, fullTotal, hpend]
  have hcore : Core c { s.pool with isNotInFreeGroup := true } s.filled V := by
    refine h.core.withFull rfl (fun _ => rfl) (fun _ => .inl rfl)
      ⟨fun p => ?_, fun p hp => ?_, fun p hp => ?_⟩ fun p hp => (h.core.mapped_held p hp).1
    · exact (Nat.le_add_right _ _).trans ((hall p).le.trans (h.core.full_le p))
    · exact h.core.full_mem p (hp.imp_left fun hp => (hall p) ▸ Nat.add_pos_left hp _)
    · exact Nat.eq_zero_of_add_eq_zero_right ((hall p).trans (h.core.full_sep p hp))
  -- the slots that `free` kept
  have hin : ∀ x ∈ s.pool.freeGroup.flatten,
      0 < fullTotal c s.pool (x / (c.pageSize : Int)) := by
    intro x hx
    have := count_pos_iff.mpr (mem_pageIds.mpr ⟨x, hx, rfl⟩ :
      x / (c.pageSize : Int) ∈ pageIds c.pageSize s.pool.freeGroup.flatten)
    have := hall (x / (c.pageSize : Int))
    omega
  have hnd : c.pageSize = 1 → s.pool.freeGroup.flatten.Nodup := by
    intro h1
    refine nodup_iff_count_le_one.mpr fun p => ?_
    have h₁ := hall p
    have h₂ := h.core.full_le p
    rw [pageIds, if_pos h1] at h₁
    omega
  have hfree : Core c (SwaPool.freeSwa c { s.pool with
      isNotInFreeGroup := true,
      fullAttnAllocator := s.pool.fullAttnAllocator.free c.full s.pool.freeGroup.flatten }
      s.pool.freeGroup.flatten) s.filled (V.wipe (Touched c s.pool.freeGroup.flatten)) := hcore.free
    (fun x hx => (Core.nonneg_of_mem (h.core.full_mem _ (.inl (hin x hx)))).le) hnd
    (fun x hx => by
      by_contra hne
      have h₁ := h.core.full_sep _ (Nat.pos_of_ne_zero hne)
      have h₂ := hin x hx
      omega)
    (funext hall ▸ h.core.full)
  obtain ⟨hfa, hflag, -, -, hmerged⟩ := freeSwa_frame (c := c) { s.pool with
    isNotInFreeGroup := true,
    fullAttnAllocator := s.pool.fullAttnAllocator.free c.full s.pool.freeGroup.flatten }
    s.pool.freeGroup.flatten
  obtain ⟨b, V', hb, hcoreB, hmF, hmS⟩ : ∃ b V',
      (if s.pool.freeGroup = [] then some { s.pool with isNotInFreeGroup := true }
        else SwaPool.free c { s.pool with isNotInFreeGroup := true } s.pool.freeGroup.flatten) = some b ∧
      Core c b s.filled V' ∧ b.fullAttnAllocator.Merged c.full ∧
      b.swaAttnAllocator.Merged c.swa := by
    split_ifs with h0
    · exact ⟨_, V, rfl, hcore, h.mergedFull, h.mergedSwa⟩
    by_cases h1 : s.pool.freeGroup.flatten = []
    · rw [SwaPool.free, if_pos h1]
      exact ⟨_, V, rfl, hcore, h.mergedFull, h.mergedSwa⟩
    refine ⟨_, _, ?_, hfree, ?_, hmerged h.mergedSwa⟩
    · rw [SwaPool.free, if_neg h1]
      exact if_pos hfree.sizes
    rw [hfa]
    exact h.mergedFull.free _
  have hend : s.pool.freeGroupEnd c = some (if b.swaFreeGroup = [] then b else { b with
      swaFreeGroup := [],
      swaAttnAllocator := b.swaAttnAllocator.free c.swa b.swaFreeGroup.flatten }) := by
    by_cases hgrp : s.pool.freeGroup = []
    · rw [if_pos hgrp] at hb
      obtain rfl := Option.some.inj hb
      simp only [SwaPool.freeGroupEnd, if_pos hgrp, Option.bind_eq_bind, Option.bind_some]
      split_ifs <;> rfl
    · rw [if_neg hgrp] at hb
      simp only [SwaPool.freeGroupEnd, if_neg hgrp, hb, Option.bind_eq_bind, Option.bind_some]
      split_ifs <;> rfl
  refine ⟨_, hend, V', ?_⟩
  split_ifs with h0
  · exact ⟨hcoreB, fun _ => h0, hmF, hmS⟩
  · exact ⟨hcoreB.flushSwa, fun _ => rfl, hmF, hmS.free _⟩

/-! ### Pages that are mapped anew -/

theorem WholePages.nonneg
    (hw : WholePages c s slots pages) {p : Int} (hp : p ∈ pages) : 0 ≤ p := by
  have hn := c.pageSize_pos
  have := hw.2.2 p hp
  exact (Core.nonneg_of_mem (h.core.full_mem p (.inr (by omega)))).le

theorem WholePages.unmapped (hw : WholePages c s slots pages)
    (h0 : ∀ x ∈ slots, s.pool.fullToSwaIndexMapping x = 0) {p : Int} (hp : p ∈ pages) :
    V.mapped p = 0 := by
  have hn := c.pageSize_pos
  refine h.core.unmapped_of_zero (hw.nonneg h hp) (h0 _ ?_)
  rw [hw.1]
  refine (mem_pageSlots hn).mpr ?_
  rw [Int.mul_ediv_cancel _ (by omega)]
  exact hp

theorem Inv.loadBack {fullIndices : List Slot}
    (ok : Allowed c s (.loadBack fullIndices)) :
    ∃ V', Inv c ⟨s.pool.loadBack c fullIndices, s.filled⟩ V' := by
  obtain ⟨pages, hw, h0⟩ := ok
  have hn := c.pageSize_pos
  have hlen : fullIndices.length / c.pageSize = pages.length := by
    rw [hw.1, pageSlots_eq hn, length_rowSlots, Nat.sub_zero, Nat.mul_div_cancel _ hn]
  unfold SwaPool.loadBack
  cases hS : s.pool.swaAttnAllocator.alloc c.swa fullIndices.length with
  | none =>
    exact ⟨V, h.core.grow rfl rfl h.core.rep h.core.view Growth.refl (fun _ => rfl)
      (took_nothing _ _).count, h.group, h.mergedFull, h.mergedSwa.sortFor _⟩
  | some r =>
    obtain ⟨outS, swa⟩ := r
    obtain ⟨freeS, tookS, rfl⟩ := alloc_spec hS
    change Took c.swa _ _ _ (fullIndices.length / c.pageSize) at tookS
    rw [hlen] at tookS
    have hfresh : Fresh s.filled V [] freeS := h.core.fresh (fun p => by simp) tookS.sub
    have hlenS : (freeS.take pages.length).length = pages.length := by
      rw [length_take, Nat.min_eq_left tookS.enough]
    obtain ⟨V', hrep, hok, hg, -⟩ := put_whole h.core.rep h.core.view hw.2.1
      (hfresh.nodupSwa.sublist (take_sublist pages.length _)) hlenS
      (fun p hp => ⟨hw.2.2 p hp, hw.unmapped h h0 hp⟩)
      (fun q hq => hfresh.unowned q (mem_of_mem_take hq))
    have hout : rowSlots c.swa.pageSize (freeS.take (fullIndices.length / c.swa.pageSize)) 0
        (fullIndices.length / c.swa.pageSize * c.swa.pageSize) =
          pageSlots c.pageSize (freeS.take pages.length) := by
      change rowSlots c.pageSize (freeS.take (fullIndices.length / c.pageSize)) 0
        (fullIndices.length / c.pageSize * c.pageSize) = _
      rw [hlen, pageSlots_eq hn, hlenS]
    simp only [settle, hout]
    rw [hw.1]
    exact ⟨V', h.core.grow rfl rfl hrep hok hg (fun p => by simp) tookS.count, h.group, h.mergedFull,
      tookS.merged h.mergedSwa⟩

theorem Inv.recover {kept incoming : List Slot}
    (ok : Allowed c s (.recover kept incoming)) :
    ∃ V', Inv c ⟨s.pool.recover c kept incoming, giveUp c s.filled incoming⟩ V' := by
  obtain ⟨pages, pages', hw, hw', hlen, hdisj, h0, h1⟩ := ok
  have hn := c.pageSize_pos
  have hfull : ∀ p ∈ pages', 0 ≤ p ∧ V.mapped p = c.pageSize := by
    intro p hp
    refine ⟨hw'.nonneg h hp, h.core.mapped_eq_of_ne_zero (hw'.nonneg h hp) fun x hx => h1 x ?_⟩
    rw [hw'.1]
    exact (mem_pageSlots hn).mpr (hx ▸ hp)
  have hswaValue := h.core.map_pageSlots hfull
  rw [← hw'.1] at hswaValue
  have hsep := h.core.view.separate
  have hndT : (pages'.map V.target).Nodup := by
    refine hw'.2.1.map_on fun p hp p' hp' e => hsep p p' ?_ ?_ e
    · rw [(hfull p hp).2]
      exact hn
    · rw [(hfull p' hp').2]
      exact hn
  -- the incoming pages give up their entries, the kept pages take them over
  have hwipe : Represents c.pageSize (clearAll s.pool.fullToSwaIndexMapping incoming)
      (V.wipe (· ∈ pages')) := by
    refine h.core.rep.wipe fun x _ => ?_
    rw [hw'.1]
    exact mem_pageSlots hn
  have hokW : ViewOk c s.filled (V.wipe (· ∈ pages')) := by
    refine ⟨hsep.wipe, h.core.view.filled_le, fun p => ?_, fun p h₁ h₂ => ?_⟩
    · simp only [TableView.wipe]
      split_ifs
      · exact Nat.zero_le _
      · exact h.core.view.mapped_le p
    · have hno : p ∉ pages' := fun hp => by
        have := hw'.2.2 p hp
        omega
      have hkeep : (V.wipe (· ∈ pages')).mapped p = V.mapped p := if_neg hno
      rw [hkeep]
      exact h.core.view.partialPage p h₁ h₂
  have howns : ∀ q, (V.wipe (· ∈ pages')).Owns q ↔ V.Owns q ∧ q ∉ pages'.map V.target := by
    intro q
    rw [hsep.owns_wipe]
    refine and_congr_right fun _ => not_congr ?_
    rw [mem_map]
    constructor
    · rintro ⟨p, hp, -, e⟩
      exact ⟨p, hp, e⟩
    · rintro ⟨p, hp, e⟩
      exact ⟨p, hp, by rw [(hfull p hp).2]; exact hn, e⟩
  have hwhole : ∀ p ∈ pages, s.filled p = c.pageSize ∧ (V.wipe (· ∈ pages')).mapped p = 0 := by
    intro p hp
    refine ⟨hw.2.2 p hp, ?_⟩
    simp only [TableView.wipe]
    rw [if_neg fun hp' => hdisj hp hp']
    exact hw.unmapped h h0 hp
  obtain ⟨V', hrep, hok, hg, hsame⟩ := put_whole hwipe hokW hw.2.1 hndT
    (by rw [length_map, hlen]) hwhole fun q hq ho => ((howns q).mp ho).2 hq
  have howns' : ∀ q, V'.Owns q ↔ V.Owns q := by
    intro q
    rw [hg.owns, howns]
    constructor
    · rintro (⟨ho, -⟩ | hq)
      · exact ho
      · obtain ⟨p, hp, rfl⟩ := mem_map.mp hq
        exact ⟨p, by rw [(hfull p hp).2]; exact hn, rfl⟩
    · intro ho
      by_cases hq : q ∈ pages'.map V.target
      · exact .inr hq
      · exact .inl ⟨ho, hq⟩
  have hmapping : clearAll (writeAll s.pool.fullToSwaIndexMapping kept
      (incoming.map s.pool.fullToSwaIndexMapping)) incoming =
      writeAll (clearAll s.pool.fullToSwaIndexMapping incoming) (pageSlots c.pageSize pages)
        (pageSlots c.pageSize (pages'.map V.target)) := by
    rw [hswaValue, ← hw.1]
    refine clearAll_writeAll fun x hx hx' => ?_
    rw [hw.1, mem_pageSlots hn] at hx
    rw [hw'.1, mem_pageSlots hn] at hx'
    exact hdisj hx hx'
  -- who has entries now
  have hmapped : ∀ p, 0 < V'.mapped p → p ∉ pages' ∧ (0 < V.mapped p ∨ 0 < s.filled p) := by
    intro p hp
    by_cases hk : p ∈ pages
    · refine ⟨fun hp' => hdisj hk hp', .inr ?_⟩
      rw [hw.2.2 p hk]
      exact hn
    · rw [hsame p hk, TableView.mapped_wipe_pos] at hp
      exact ⟨hp.2, .inl hp.1⟩
  have hfc : ∀ p, 0 < V'.mapped p →
      s.pool.fullAttnAllocator.count p = 0 ∧ p ∈ PagedPool.allPages c.full := by
    intro p hp
    rcases (hmapped p hp).2 with hm | hf
    · exact h.core.mapped_held p hm
    · have := h.core.full_sep p hf
      unfold fullTotal at this
      exact ⟨by omega, h.core.full_mem p (.inr hf)⟩
  have hcore : Core c { s.pool with
      fullToSwaIndexMapping := writeAll (clearAll s.pool.fullToSwaIndexMapping incoming)
        (pageSlots c.pageSize pages) (pageSlots c.pageSize (pages'.map V.target)) } s.filled V' :=
    ⟨hrep, hok, h.core.full_le, h.core.full_mem, h.core.full_sep, hfc, h.core.swa_le,
      fun q => by rw [howns']; exact h.core.swa_mem q, fun q hq => h.core.swa_sep q ((howns' q).mp hq)⟩
  have hheld : ∀ x ∈ incoming, 0 < s.filled (x / (c.pageSize : Int)) := by
    intro x hx
    rw [hw'.1, mem_pageSlots hn] at hx
    rw [hw'.2.2 _ hx]
    exact hn
  have hnd : c.pageSize = 1 → incoming.Nodup := by
    intro _
    rw [hw'.1, pageSlots_eq hn]
    exact nodup_rowSlots hn hw'.2.1 (numPagesOf_mul hn _).le
  have htotal : ∀ p, fullTotal c { s.pool with
      fullToSwaIndexMapping := writeAll (clearAll s.pool.fullToSwaIndexMapping incoming)
        (pageSlots c.pageSize pages) (pageSlots c.pageSize (pages'.map V.target)),
      fullAttnAllocator := s.pool.fullAttnAllocator.free c.full incoming } p =
      fullTotal c s.pool p + (pageIds c.pageSize incoming).count p := by
    intro p
    rw [fullTotal, count_freeFull, fullTotal]
    exact Nat.add_right_comm _ _ _
  refine ⟨V', ?_, h.group, h.mergedFull.free incoming, h.mergedSwa⟩
  rw [SwaPool.recover]
  dsimp only [setFullToSwaMapping, clearFullToSwaMapping]
  rw [hmapping]
  refine hcore.withFull rfl (fun _ => rfl) (giveUp_cases s.filled)
    (h.core.returnFull hnd hheld htotal) fun p hp => ?_
  rw [count_freeFull, (hfc p hp).1]
  refine (Nat.zero_add _).trans (count_pageIds_of_not_touched fun ht => ?_)
  obtain ⟨x, hx, rfl⟩ := mem_map.mp ht
  rw [hw'.1, mem_pageSlots hn] at hx
  exact (hmapped _ hp).1 hx

end

end SglangRuntime.SwaPool
