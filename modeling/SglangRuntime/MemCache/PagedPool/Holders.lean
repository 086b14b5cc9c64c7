import SglangRuntime.MemCache.PagedPool.Model

/-!
# Memory cache — what the callers of the page allocator hold

The pages of the slots that are given back leave their caller once (`count_letGo`), and a batch of
extensions gives its callers the first pages of the free list, each once (`count_foldl_hold`).
-/

namespace SglangRuntime.PagedPool

open Foundation List

variable {c : PoolConfig} {Caller : Type} [DecidableEq Caller] {held : List (Caller × Int)}
  {given : List (Caller × Slot)} {ids pages : List Int} {p : Int} {r : Caller}
  {o : Caller × List Slot} {x : Slot} {e : Extension} {free : List Int}

/-! ### What the callers hold -/

theorem mem_pages_letGo (hnd : (held.map Prod.snd).Nodup)
    (hg : ∀ g ∈ given, (g.1, g.2 / (c.pageSize : Int)) ∈ held) :
    p ∈ (letGo c held given).map Prod.snd ↔
      p ∈ held.map Prod.snd ∧ ¬ ∃ g ∈ given, g.2 / (c.pageSize : Int) = p := by
  have hinj := inj_on_of_nodup_map hnd
  simp only [letGo, mem_map, mem_filter, decide_eq_true_eq]
  constructor
  · rintro ⟨h, ⟨hh, hno⟩, rfl⟩
    refine ⟨⟨h, hh, rfl⟩, fun ⟨g, hgm, e⟩ => hno ⟨g, hgm, hinj (hg g hgm) hh e⟩⟩
  · rintro ⟨⟨h, hh, rfl⟩, hno⟩
    exact ⟨h, ⟨hh, fun ⟨g, hgm, e⟩ => hno ⟨g, hgm, congrArg Prod.snd e⟩⟩, rfl⟩

/-- Pages move from the callers to the list of those that are returned. -/
theorem count_letGo (hnd : (held.map Prod.snd).Nodup)
    (hg : ∀ g ∈ given, (g.1, g.2 / (c.pageSize : Int)) ∈ held) (hids : ids.Nodup)
    (hmem : ∀ p, p ∈ ids ↔ ∃ g ∈ given, g.2 / (c.pageSize : Int) = p) (p : Int) :
    ((letGo c held given).map Prod.snd).count p + ids.count p = (held.map Prod.snd).count p := by
  have hsub : ((letGo c held given).map Prod.snd).Nodup :=
    hnd.sublist (filter_sublist.map Prod.snd)
  rw [hsub.count, hids.count, hnd.count]
  have hlet := mem_pages_letGo (p := p) hnd hg
  rw [← hmem p] at hlet
  have hheld : p ∈ ids → p ∈ held.map Prod.snd := by
    intro hp
    obtain ⟨g, hgm, rfl⟩ := (hmem p).mp hp
    exact mem_map_of_mem (hg g hgm)
  by_cases hp : p ∈ ids
  · rw [if_neg fun h => (hlet.mp h).2 hp, if_pos hp, if_pos (hheld hp)]
  · rw [if_neg hp]
    by_cases hh : p ∈ held.map Prod.snd
    · rw [if_pos (hlet.mpr ⟨hh, hp⟩), if_pos hh]
    · rw [if_neg fun h => hh (hlet.mp h).1, if_neg hh]

theorem letGo_nil : letGo c held [] = held := by
  simp [letGo]

theorem hold_subset (o : Caller × List Slot) : held ⊆ hold c held o :=
  subset_append_left ..

theorem foldl_hold_subset (outs : List (Caller × List Slot)) (held : List (Caller × Int)) :
    held ⊆ outs.foldl (hold c) held := by
  induction outs generalizing held with
  | nil => exact List.Subset.refl _
  | cons o outs ih => exact List.Subset.trans (hold_subset o) (ih _)

/-- Returned slots are in pages that their caller holds. -/
theorem mem_hold (hx : x ∈ o.2) : (o.1, x / (c.pageSize : Int)) ∈ hold c held o := by
  by_cases hh : (o.1, x / (c.pageSize : Int)) ∈ held
  · exact mem_append_left _ hh
  · refine mem_append_right _ (mem_map_of_mem (mem_filter.mpr ⟨?_, by simpa using hh⟩))
    exact mem_dedup.mpr (mem_map_of_mem hx)

theorem mem_foldl_hold {outs : List (Caller × List Slot)} (ho : o ∈ outs) (hx : x ∈ o.2) :
    (o.1, x / (c.pageSize : Int)) ∈ outs.foldl (hold c) held := by
  induction outs generalizing held with
  | nil => exact absurd ho not_mem_nil
  | cons o' outs ih =>
    rcases mem_cons.mp ho with rfl | ho
    · exact foldl_hold_subset outs _ (mem_hold hx)
    · exact ih ho

/-- Pages that are new to every caller are added once each. -/
theorem count_hold (hnd : pages.Nodup) (hnew : ∀ p ∈ pages, p ∉ held.map Prod.snd)
    (hout : ∀ p, (∃ x ∈ o.2, x / (c.pageSize : Int) = p) → p ∈ pages ∨ (o.1, p) ∈ held)
    (hall : ∀ p ∈ pages, ∃ x ∈ o.2, x / (c.pageSize : Int) = p) (p : Int) :
    ((hold c held o).map Prod.snd).count p = (held.map Prod.snd).count p + pages.count p := by
  have hperm : ((o.2.map (· / (c.pageSize : Int))).dedup.filter fun p => (o.1, p) ∉ held).Perm
      pages := by
    refine (perm_ext_iff_of_nodup ((nodup_dedup _).filter _) hnd).mpr fun q => ?_
    simp only [mem_filter, mem_dedup, mem_map, decide_eq_true_eq]
    constructor
    · rintro ⟨hq, hno⟩
      exact (hout q hq).resolve_right hno
    · intro hq
      exact ⟨hall q hq, fun hh => hnew q hq (mem_map_of_mem hh)⟩
  rw [hold, map_append, count_append, map_map, ← hperm.count_eq p]
  congr 2
  exact map_id _

/-! ### What an extension adds -/

omit [DecidableEq Caller] in
/-- The slots of a consistent extension are in the new pages and in the caller's partial page, and
they reach every new page. -/
theorem Consistent.slots_pages (h : Consistent c held r e)
    (hfree : e.numNewPages c.pageSize ≤ free.length) :
    (∀ p, (∃ x ∈ e.slots c.pageSize free, x / (c.pageSize : Int) = p) →
        p ∈ free.take (e.numNewPages c.pageSize) ∨ (r, p) ∈ held) ∧
      ∀ p ∈ free.take (e.numNewPages c.pageSize),
        ∃ x ∈ e.slots c.pageSize free, x / (c.pageSize : Int) = p := by
  have hn := c.pageSize_pos
  have hdm := Nat.div_add_mod' e.prefixLen c.pageSize
  by_cases hd : c.pageSize ∣ e.prefixLen
  · -- the extension starts a page
    have hcov := Extension.slots_covers hn (Covers.nil hn) (e := e) (k := e.prefixLen / c.pageSize)
      (by simpa using (Nat.div_mul_cancel hd).symm) (fun hne => absurd rfl hne) h.le hfree
    exact ⟨fun p hp => .inl ((hcov.mem_iff hn).mpr hp), fun p hp => (hcov.mem_iff hn).mp hp⟩
  obtain ⟨old, hpage, hold, hlast⟩ := e.lastPage hn hd (h.last hd).2
  have hlt := Nat.mod_lt e.prefixLen hn
  have hcov := Extension.slots_covers hn hpage (e := e) (k := e.prefixLen / c.pageSize)
    (by rw [hold, hdm]) (fun _ => hlast) h.le hfree
  refine ⟨fun p hp => ?_, fun p hp => ?_⟩
  · obtain ⟨x, hx, rfl⟩ := hp
    rcases mem_append.mp
      ((hcov.mem_iff hn).mpr ⟨x, mem_append_right _ hx, rfl⟩) with hq | hq
    · rw [mem_singleton.mp hq]
      exact .inr (h.last hd).1
    · exact .inl hq
  · -- a new page starts at a place behind the old part
    obtain ⟨i, hi, rfl⟩ := getElem_of_mem hp
    have hlen := hcov.length
    rw [length_append, length_singleton] at hlen
    have hidx : (i + 1) * c.pageSize < old.length + (e.slots c.pageSize free).length := by
      rw [← length_append]
      exact (lt_numPagesOf hn).mp (by rw [← hlen]; omega)
    have hge : old.length ≤ (i + 1) * c.pageSize := by
      have := Nat.le_mul_of_pos_left c.pageSize (show 0 < i + 1 by omega)
      omega
    obtain ⟨x, hx⟩ : ∃ x, (e.slots c.pageSize free)[(i + 1) * c.pageSize - old.length]? = some x :=
      ⟨_, getElem?_eq_getElem (by omega)⟩
    have hslot := (hcov.slot ((i + 1) * c.pageSize) x (by
      rw [getElem?_append_right hge]
      exact hx)).1
    rw [Nat.mul_div_cancel _ hn, getElem?_append_right (by simp)] at hslot
    simp only [length_singleton, Nat.add_sub_cancel] at hslot
    rw [getElem?_eq_getElem hi, Option.some.injEq] at hslot
    exact ⟨x, mem_of_getElem? hx, hslot.symm⟩

omit [DecidableEq Caller] in
theorem Consistent.mono {held' : List (Caller × Int)} (h : Consistent c held r e)
    (hsub : held ⊆ held') : Consistent c held' r e :=
  ⟨h.le, fun hd => ⟨hsub (h.last hd).1, (h.last hd).2⟩⟩

/-- **A batch of extensions** gives its callers the first pages of the free list. -/
theorem count_foldl_hold {batch : List (Caller × Extension)}
    (hok : ∀ x ∈ batch, Consistent c held x.1 x.2)
    (hfree : ((batch.map Prod.snd).map (·.numNewPages c.pageSize)).sum ≤ free.length)
    (hnd : free.Nodup) (hnew : ∀ p ∈ free, p ∉ held.map Prod.snd) (p : Int) :
    ((((batch.map Prod.fst).zip (allocExtendKernel c.pageSize (batch.map Prod.snd) free)).foldl
        (hold c) held).map Prod.snd).count p =
      (held.map Prod.snd).count p +
        (free.take ((batch.map Prod.snd).map (·.numNewPages c.pageSize)).sum).count p := by
  induction batch generalizing held free with
  | nil => simp
  | cons x batch ih =>
    simp only [map_cons, sum_cons] at hfree ⊢
    rw [allocExtendKernel, zip_cons_cons, foldl_cons]
    have hroom : x.2.numNewPages c.pageSize ≤ free.length := by omega
    obtain ⟨hout, hall⟩ := (hok x mem_cons_self).slots_pages hroom
    have htake : (free.take (x.2.numNewPages c.pageSize)).Nodup := hnd.sublist (take_sublist ..)
    have hone := count_hold (o := (x.1, x.2.slots c.pageSize free)) htake
      (fun q hq => hnew q (mem_of_mem_take hq)) hout hall
    rw [ih (fun y hy => (hok y (mem_cons_of_mem _ hy)).mono (hold_subset _)) _
      (hnd.sublist (drop_sublist ..)) _, hone, Nat.add_assoc, ← count_append,
      ← take_add]
    · rw [length_drop]
      omega
    -- what is left of the free list is new to everybody
    intro q hq hmem
    have hc := hone q
    have hcut : (free.take (x.2.numNewPages c.pageSize)).count q = 0 := by
      refine count_eq_zero.mpr fun hq' => ?_
      have hdisj := disjoint_take_drop hnd (Nat.le_refl (x.2.numNewPages c.pageSize))
      exact hdisj hq' hq
    rw [hcut, count_eq_zero.mpr (hnew q (mem_of_mem_drop hq)),
      count_eq_zero] at hc
    exact hc hmem

end SglangRuntime.PagedPool
