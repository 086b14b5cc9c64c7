import SglangRuntime.MemCache.MultiEnded.Model
import Mathlib.Data.Finset.Card
import Mathlib.Order.Interval.Finset.Nat
import Mathlib.Tactic.Tauto

/-!
# Memory cache — the tables of `MultiEndedAllocator`

`Classes` says which physical pages a sub-pool has: the bound pages, all in the band, and a list
`unbound` of the rest of the band.  It depends on `unbound` up to order, so a page that goes from the
holes to `_pending_reuse` or back changes nothing.  Each operation moves pages between the bound and
the unbound, or moves the watermark (`Classes.bind`, `.unbind`, `.move`, `.extend`, `.absorb`,
`.pack`).

`Inv` adds that the virtual ids match, that `live_page_count` is right and that the CPU mirror of
`_pending_reuse` is one.
-/

namespace SglangRuntime.MultiEnded

open Foundation List AllocConfig

/-! ### Geometry of the band -/

namespace AllocConfig

variable {c : AllocConfig} {wm n p q : Nat} {l : List Nat}

section

variable (c : AllocConfig)

/-- A watermark that the sub-pool can have. -/
def WatermarkOk (wm : Nat) : Prop :=
  match c.growDirection with
  | .up => c.minPageIndex ≤ wm ∧ (wm ≤ c.numPages ∨ wm = c.minPageIndex)
  | .down => wm + 1 ≤ c.numPages ∧ (c.minPageIndex ≤ wm + 1 ∨ wm + 1 = c.numPages)

theorem watermarkOk_start : c.WatermarkOk c.startWatermark := by
  have := c.numPages_pos
  unfold WatermarkOk startWatermark
  cases c.growDirection with
  | up => exact ⟨Nat.le_refl _, .inr rfl⟩
  | down => simp only; omega

theorem not_inBand_start (p : Nat) : ¬ c.InBand c.startWatermark p := by
  unfold InBand startWatermark
  cases c.growDirection <;> simp only <;> omega

theorem allocatedPages_start : c.allocatedPages c.startWatermark = 0 := by
  unfold allocatedPages startWatermark
  cases c.growDirection <;> simp

end

theorem InBand.range (h : c.WatermarkOk wm) (hp : c.InBand wm p) :
    c.minPageIndex ≤ p ∧ p < c.numPages := by
  unfold WatermarkOk at h
  unfold InBand at hp
  cases hd : c.growDirection <;> simp only [hd] at h hp <;> omega

theorem Outer.trans {r : Nat} (h : c.Outer p q) (h' : c.Outer q r) : c.Outer p r := by
  unfold Outer at *
  cases hd : c.growDirection <;> simp only [hd] at h h' ⊢ <;> omega

theorem outer_irrefl (c : AllocConfig) (p : Nat) : ¬ c.Outer p p := by
  unfold Outer
  cases c.growDirection <;> simp

theorem Outer.ne (h : c.Outer p q) : p ≠ q := by
  rintro rfl
  exact c.outer_irrefl p h

theorem outer_trichotomy (c : AllocConfig) (p q : Nat) : c.Outer p q ∨ p = q ∨ c.Outer q p := by
  unfold Outer
  cases c.growDirection <;> simp only <;> omega

/-- A sorted list, read from the anchored end, goes outwards. -/
theorem pairwise_outward (h : l.Pairwise (· < ·)) :
    (c.outward l).Pairwise fun a b => c.Outer b a := by
  unfold outward Outer
  cases c.growDirection with
  | up => exact h
  | down => exact pairwise_reverse.mpr h

@[simp] theorem mem_outward : p ∈ c.outward l ↔ p ∈ l := by
  unfold outward
  cases c.growDirection <;> simp

section

variable (c : AllocConfig)

theorem outward_perm (l : List Nat) : (c.outward l).Perm l := by
  unfold outward
  cases c.growDirection with
  | up => exact .refl _
  | down => exact reverse_perm l

@[simp] theorem outward_outward (l : List Nat) : c.outward (c.outward l) = l := by
  unfold outward
  cases c.growDirection <;> simp

/-- How far a page of the band is from the anchored end. -/
def depth (p : Nat) : Nat :=
  match c.growDirection with
  | .up => p - c.minPageIndex
  | .down => c.numPages - 1 - p

end

theorem depth_lt (h : c.WatermarkOk wm) (hp : c.InBand wm p) : c.depth p < c.allocatedPages wm := by
  unfold WatermarkOk at h
  unfold InBand at hp
  unfold depth allocatedPages
  cases hd : c.growDirection <;> simp only [hd] at h hp ⊢ <;> omega

theorem exists_depth (h : c.WatermarkOk wm) (hn : n < c.allocatedPages wm) :
    ∃ p, c.InBand wm p ∧ c.depth p = n := by
  unfold WatermarkOk at h
  unfold allocatedPages at hn
  unfold InBand depth
  cases hd : c.growDirection with
  | up => simp only [hd] at h hn ⊢; exact ⟨c.minPageIndex + n, by omega, by omega⟩
  | down => simp only [hd] at h hn ⊢; exact ⟨c.numPages - 1 - n, by omega, by omega⟩

theorem depth_lt_iff (hp : c.InBand wm p) (hq : c.InBand wm q) :
    c.depth p < c.depth q ↔ c.Outer q p := by
  unfold InBand at hp hq
  unfold depth Outer
  cases hd : c.growDirection <;> simp only [hd] at hp hq ⊢ <;> omega

theorem depth_inj (hp : c.InBand wm p) (hq : c.InBand wm q) (e : c.depth p = c.depth q) :
    p = q := by
  rcases c.outer_trichotomy p q with ho | ho | ho
  · exact absurd ((depth_lt_iff hq hp).mpr ho) (by omega)
  · exact ho
  · exact absurd ((depth_lt_iff hp hq).mpr ho) (by omega)

theorem watermarkOk_retreat (h : c.WatermarkOk wm) (hn : n ≤ c.allocatedPages wm) :
    c.WatermarkOk (c.retreat wm n) := by
  unfold WatermarkOk at *
  unfold allocatedPages at hn
  unfold retreat
  cases hd : c.growDirection <;> simp only [hd] at h hn ⊢ <;> omega

theorem allocatedPages_retreat (c : AllocConfig) (wm n : Nat) :
    c.allocatedPages (c.retreat wm n) = c.allocatedPages wm - n := by
  unfold allocatedPages retreat
  cases c.growDirection <;> simp only <;> omega

/-- After a retreat the band holds the pages nearest to the anchored end. -/
theorem inBand_retreat :
    c.InBand (c.retreat wm n) p ↔ c.InBand wm p ∧ c.depth p < c.allocatedPages wm - n := by
  unfold InBand depth retreat allocatedPages
  cases c.growDirection <;> simp only <;> omega

theorem allocatedPages_pos (h : c.WatermarkOk wm) (hp : c.InBand wm p) :
    1 ≤ c.allocatedPages wm := by
  have := depth_lt h hp
  omega

theorem depth_edge (h : c.WatermarkOk wm) (hp : c.InBand wm (c.edge wm)) :
    c.depth (c.edge wm) = c.allocatedPages wm - 1 := by
  unfold WatermarkOk at h
  unfold InBand edge at hp
  unfold depth edge allocatedPages
  cases hd : c.growDirection <;> simp only [hd] at h hp ⊢ <;> omega

end AllocConfig

namespace MultiEndedAllocator

variable {c : AllocConfig} {s s' : MultiEndedAllocator} {peer : Peer} {n p : Nat}

/-! ### Extending the watermark -/

/-- What an extension by `n` pages does. -/
structure Extended (c : AllocConfig) (wm wm' : Nat) (new : List Nat) : Prop where
  ok : c.WatermarkOk wm'
  nodup : new.Nodup
  inBand : ∀ p, c.InBand wm' p ↔ c.InBand wm p ∨ p ∈ new
  fresh : ∀ p ∈ new, ¬ c.InBand wm p
  count : c.allocatedPages wm' = c.allocatedPages wm + new.length

theorem extendWatermark_spec (hok : c.WatermarkOk s.watermark) (hn : 0 < n)
    (h : s.extendWatermark c peer n = some s') :
    (∃ wm', s' = { s with watermark := wm' }) ∧
      Extended c s.watermark s'.watermark (s'.extensionPages c n) ∧
      (s'.extensionPages c n).length = n := by
  unfold AllocConfig.WatermarkOk at hok
  have hmin := c.minPageIndex_pos
  -- the band is an interval in both directions
  cases hd : c.growDirection
  all_goals
    simp only [extendWatermark, hd] at h
    simp only [hd] at hok
    split_ifs at h with h₁ h₂
    cases h
    refine ⟨⟨_, rfl⟩, ⟨?_, ?_, fun p => ?_, fun p hp => ?_, ?_⟩, ?_⟩
    · simp only [AllocConfig.WatermarkOk, hd]; omega
    · simp only [extensionPages, hd]; exact nodup_range'
    · simp only [AllocConfig.InBand, extensionPages, hd, mem_range'_1]; omega
    · simp only [AllocConfig.InBand, extensionPages, hd, mem_range'_1] at hp ⊢; omega
    · simp only [allocatedPages, extensionPages, hd, length_range']; omega
    · simp only [extensionPages, hd, length_range']

end MultiEndedAllocator

/-! ### Bound and unbound pages -/

/-- The pages of a sub-pool with watermark `wm` and table `g`: page 0 and the band, of which
`unbound` lists the pages that are not bound. -/
structure Classes (c : AllocConfig) (wm : Nat) (g : Nat → Option Nat) (unbound : List Nat) :
    Prop where
  ok : c.WatermarkOk wm
  sink : g 0 = some 0
  bound : ∀ p v, g p = some v → p = 0 ∨ c.InBand wm p
  nodup : unbound.Nodup
  mem_iff : ∀ p, p ∈ unbound ↔ c.InBand wm p ∧ g p = none

namespace Classes

variable {c : AllocConfig} {wm wm' : Nat} {g : Nat → Option Nat} {l l' : List Nat} {p : Nat}
  {vs : List Nat}

section

variable (h : Classes c wm g l)
include h

theorem perm (hp : l.Perm l') : Classes c wm g l' :=
  ⟨h.ok, h.sink, h.bound, hp.nodup_iff.mp h.nodup, fun p => hp.mem_iff.symm.trans (h.mem_iff p)⟩

theorem ne_zero (hp : c.InBand wm p) : p ≠ 0 := by
  have := hp.range h.ok
  have := c.minPageIndex_pos
  omega

theorem unbound_of_not_inBand (h0 : p ≠ 0)
    (hp : ¬ c.InBand wm p) : g p = none := by
  rcases hg : g p with - | v
  · rfl
  · exact absurd (h.bound p v hg) (by tauto)

/-- The new pages of an extension are unbound. -/
theorem extend {new : List Nat}
    (he : MultiEndedAllocator.Extended c wm wm' new) : Classes c wm' g (l ++ new) := by
  have hnew : ∀ p ∈ new, g p = none := by
    intro p hp
    have hin : c.InBand wm' p := (he.inBand p).mpr (.inr hp)
    have h0 : p ≠ 0 := by
      have := hin.range he.ok
      have := c.minPageIndex_pos
      omega
    exact h.unbound_of_not_inBand h0 (he.fresh p hp)
  refine ⟨he.ok, h.sink, fun p v hv => ?_, ?_, fun p => ?_⟩
  · exact (h.bound p v hv).imp_right fun hp => (he.inBand p).mpr (.inl hp)
  · refine nodup_append.mpr ⟨h.nodup, he.nodup, fun p hp q hq e => ?_⟩
    exact he.fresh q hq (e ▸ ((h.mem_iff p).mp hp).1)
  · rw [mem_append, h.mem_iff, he.inBand]
    constructor
    · rintro (⟨h₁, h₂⟩ | hp)
      · exact ⟨.inl h₁, h₂⟩
      · exact ⟨.inr hp, hnew p hp⟩
    · rintro ⟨h₁ | hp, h₂⟩
      · exact .inl ⟨h₁, h₂⟩
      · exact .inr hp

end

/-- Unbound pages are bound. -/
theorem bind (h : Classes c wm g (l ++ l')) (hlen : l.length = vs.length) :
    Classes c wm (scatter g l vs) l' := by
  obtain ⟨hnd, hnd', hdis⟩ := nodup_append.mp h.nodup
  have hl : ∀ p ∈ l, c.InBand wm p := fun p hp =>
    ((h.mem_iff p).mp (mem_append_left _ hp)).1
  have h0 : 0 ∉ l := fun hm => h.ne_zero (hl 0 hm) rfl
  refine ⟨h.ok, by rw [scatter_of_notMem h0, h.sink], fun p v hv => ?_, hnd', fun p => ?_⟩
  · rcases (scatter_eq_some_iff hnd hlen).mp hv with hz | ⟨-, hv⟩
    · exact .inr (hl p (of_mem_zip hz).1)
    · exact h.bound p v hv
  by_cases hp : p ∈ l
  · have hnot : p ∉ l' := fun hp' => hdis p hp p hp' rfl
    refine iff_of_false hnot fun ⟨_, hn⟩ => ?_
    obtain ⟨v, hz⟩ := exists_mem_zip hlen hp
    rw [(scatter_eq_some_iff hnd hlen).mpr (.inl hz)] at hn
    cases hn
  · rw [scatter_of_notMem hp, ← h.mem_iff, mem_append]
    simp [hp]

/-- Bound pages are unbound. -/
theorem unbind (h : Classes c wm g l) {ps : List Nat} (hnd : ps.Nodup)
    (hps : ∀ p ∈ ps, p ≠ 0 ∧ g p ≠ none) : Classes c wm (wipe g ps) (l ++ ps) := by
  have hband : ∀ p ∈ ps, c.InBand wm p := by
    intro p hp
    obtain ⟨v, hv⟩ := Option.ne_none_iff_exists'.mp (hps p hp).2
    exact (h.bound p v hv).resolve_left (hps p hp).1
  have h0 : 0 ∉ ps := fun hm => (hps 0 hm).1 rfl
  refine ⟨h.ok, by rw [wipe, if_neg h0, h.sink], fun p v hv => ?_, ?_, fun p => ?_⟩
  · exact h.bound p v (wipe_eq_some_iff.mp hv).2
  · refine nodup_append.mpr ⟨h.nodup, hnd, fun p hp q hq e => ?_⟩
    exact (hps q hq).2 (e ▸ ((h.mem_iff p).mp hp).2)
  · rw [mem_append, h.mem_iff, wipe]
    by_cases hp : p ∈ ps
    · simp [hp, hband p hp]
    · simp [hp]

/-- Bindings move from `srcs` to unbound pages. -/
theorem move (h : Classes c wm g (l ++ l')) {srcs : List Nat} (hs : srcs.Nodup)
    (hsrc : ∀ p ∈ srcs, p ≠ 0 ∧ g p ≠ none) (hlen : l.length = vs.length) :
    Classes c wm (wipe (scatter g l vs) srcs) (l' ++ srcs) := by
  refine (h.bind hlen).unbind hs fun p hp => ⟨(hsrc p hp).1, ?_⟩
  have hnot : p ∉ l := fun hm =>
    (hsrc p hp).2 ((h.mem_iff p).mp (mem_append_left _ hm)).2
  rw [scatter_of_notMem hnot]
  exact (hsrc p hp).2

/-! ### The size of the band -/

/-- The pages of the band, as a finite set. -/
def bandPages (c : AllocConfig) (wm : Nat) : Finset Nat :=
  (Finset.range c.numPages).filter (c.InBand wm)

theorem mem_bandPages (hok : c.WatermarkOk wm) : p ∈ bandPages c wm ↔ c.InBand wm p := by
  rw [bandPages, Finset.mem_filter, Finset.mem_range, and_iff_right_iff_imp]
  exact fun hp => (hp.range hok).2

theorem image_depth (hok : c.WatermarkOk wm) :
    (bandPages c wm).image c.depth = Finset.range (c.allocatedPages wm) := by
  ext n
  rw [Finset.mem_image, Finset.mem_range]
  constructor
  · rintro ⟨p, hp, rfl⟩
    exact depth_lt hok ((mem_bandPages hok).mp hp)
  · intro hn
    obtain ⟨p, hp, e⟩ := exists_depth hok hn
    exact ⟨p, (mem_bandPages hok).mpr hp, e⟩

theorem card_image_depth {A : Finset Nat}
    (hA : ∀ p ∈ A, c.InBand wm p) : (A.image c.depth).card = A.card :=
  Finset.card_image_of_injOn fun _ hp _ hq e => depth_inj (hA _ hp) (hA _ hq) e

theorem card_bandPages (hok : c.WatermarkOk wm) : (bandPages c wm).card = c.allocatedPages wm := by
  rw [← card_image_depth fun p hp => (mem_bandPages hok).mp hp, image_depth hok,
    Finset.card_range]

section

variable (h : Classes c wm g l)
include h

theorem length_le : l.length ≤ c.allocatedPages wm := by
  rw [← card_bandPages h.ok, ← toFinset_card_of_nodup h.nodup]
  refine Finset.card_le_card fun p hp => ?_
  exact (mem_bandPages h.ok).mpr ((h.mem_iff p).mp (mem_toFinset.mp hp)).1

/-- The bound pages are the rest of the band. -/
theorem card_bound :
    ((bandPages c wm).filter fun p => g p ≠ none).card + l.length = c.allocatedPages wm := by
  have hl : (bandPages c wm).filter (fun p => ¬ g p ≠ none) = l.toFinset := by
    ext p
    rw [Finset.mem_filter, mem_bandPages h.ok, mem_toFinset, h.mem_iff, not_not]
  have := Finset.card_filter_add_card_filter_not (s := bandPages c wm) fun p => g p ≠ none
  rw [hl, toFinset_card_of_nodup h.nodup, card_bandPages h.ok] at this
  exact this

/-! ### Moving the watermark back -/

/-- If every unbound page is farther out than every bound one, the watermark can retreat past them
all. -/
theorem pack
    (hout : ∀ p ∈ l, ∀ q, c.InBand wm q → g q ≠ none → c.Outer p q) :
    Classes c (c.retreat wm l.length) g [] := by
  have hle := h.length_le
  -- a bound page has all unbound pages above it, an unbound one all bound pages below it
  have hbound : ∀ q, c.InBand wm q → g q ≠ none → c.depth q < c.allocatedPages wm - l.length := by
    intro q hq hg
    have hsub : l.toFinset.image c.depth ⊆ Finset.Ioo (c.depth q) (c.allocatedPages wm) := by
      intro n hn
      obtain ⟨p, hp, rfl⟩ := Finset.mem_image.mp hn
      have hp := mem_toFinset.mp hp
      have hpb := ((h.mem_iff p).mp hp).1
      exact Finset.mem_Ioo.mpr ⟨(depth_lt_iff hq hpb).mpr (hout p hp q hq hg),
        depth_lt h.ok hpb⟩
    have hcard := Finset.card_le_card hsub
    rw [card_image_depth fun p hp => ((h.mem_iff p).mp (mem_toFinset.mp hp)).1,
      toFinset_card_of_nodup h.nodup, Nat.card_Ioo] at hcard
    have := depth_lt h.ok hq
    omega
  have hunbound : ∀ p ∈ l, c.allocatedPages wm - l.length ≤ c.depth p := by
    intro p hp
    have hpb := ((h.mem_iff p).mp hp).1
    have hsub : ((bandPages c wm).filter fun q => g q ≠ none).image c.depth ⊆
        Finset.range (c.depth p) := by
      intro n hn
      obtain ⟨q, hq, rfl⟩ := Finset.mem_image.mp hn
      obtain ⟨hq, hg⟩ := Finset.mem_filter.mp hq
      have hq := (mem_bandPages h.ok).mp hq
      exact Finset.mem_range.mpr ((depth_lt_iff hq hpb).mpr (hout p hp q hq hg))
    have hcard := Finset.card_le_card hsub
    rw [card_image_depth fun q hq => (mem_bandPages h.ok).mp (Finset.mem_filter.mp hq).1,
      Finset.card_range] at hcard
    have := h.card_bound
    omega
  refine ⟨watermarkOk_retreat h.ok hle, h.sink, fun p v hv => ?_, nodup_nil,
    fun p => ?_⟩
  · refine (h.bound p v hv).imp_right fun hp => ?_
    exact inBand_retreat.mpr ⟨hp, hbound p hp (by rw [hv]; simp)⟩
  refine iff_of_false not_mem_nil ?_
  rintro ⟨hp, hg⟩
  obtain ⟨hp, hd⟩ := inBand_retreat.mp hp
  have := hunbound p ((h.mem_iff p).mpr ⟨hp, hg⟩)
  omega

end

/-- A hole next to the watermark is given up. -/
theorem absorb (h : Classes c wm g (c.edge wm :: l)) : Classes c (c.retreat wm 1) g l := by
  have hedge := ((h.mem_iff (c.edge wm)).mp mem_cons_self)
  obtain ⟨hnot, hnd⟩ := nodup_cons.mp h.nodup
  have hle := allocatedPages_pos h.ok hedge.1
  -- the smaller band is the band without the page at the edge
  have hband : ∀ p, c.InBand (c.retreat wm 1) p ↔ c.InBand wm p ∧ p ≠ c.edge wm := by
    intro p
    rw [inBand_retreat]
    refine and_congr_right fun hp => ?_
    have hd := depth_edge h.ok hedge.1
    have hlt := depth_lt h.ok hp
    constructor
    · rintro hlt rfl
      omega
    · intro hne
      have : c.depth p ≠ c.depth (c.edge wm) := fun e => hne (depth_inj hp hedge.1 e)
      omega
  refine ⟨watermarkOk_retreat h.ok hle, h.sink, fun p v hv => ?_, hnd, fun p => ?_⟩
  · refine (h.bound p v hv).imp_right fun hp => (hband p).mpr ⟨hp, ?_⟩
    rintro rfl
    rw [hedge.2] at hv
    cases hv
  rw [hband]
  have := h.mem_iff p
  rw [mem_cons] at this
  constructor
  · intro hp
    have hp' := this.mp (.inr hp)
    exact ⟨⟨hp'.1, fun e => hnot (e ▸ hp)⟩, hp'.2⟩
  · rintro ⟨⟨hp, hne⟩, hg⟩
    exact (this.mpr ⟨hp, hg⟩).resolve_left hne

end Classes

/-! ### The invariant of an allocator -/

namespace MultiEndedAllocator

/-- The pages that wait in `_pending_reuse`. -/
def pendingPages (s : MultiEndedAllocator) : List Nat := s.pendingReuse.flatMap Prod.snd

/-- The virtual ids of an id owner: those in `free_virtual_ids` and the bound ones. -/
structure Ids (c : AllocConfig) (s : MultiEndedAllocator) : Prop where
  nodup : s.freeVirtualIds.Nodup
  mem_iff : ∀ v, v ∈ s.freeVirtualIds ↔
    c.minPageIndex ≤ v ∧ v < c.numPages ∧ s.virtualToPhysical v = none
  bound : ∀ v p, s.virtualToPhysical v = some p → v = 0 ∨ c.minPageIndex ≤ v ∧ v < c.numPages
  count : (s.freeVirtualIds.length : Int) + s.livePageCount = (c.numPages - c.minPageIndex : Nat)

structure Inv (c : AllocConfig) (s : MultiEndedAllocator) : Prop where
  classes : Classes c s.watermark s.physicalToVirtual (s.freePhysPages ++ s.pendingPages)
  inverse : MutuallyInverse s.virtualToPhysical s.physicalToVirtual
  count : s.livePageCount + (s.freePhysPages ++ s.pendingPages).length =
    c.allocatedPages s.watermark
  mirror : ∀ p, p ∈ s.pendingReusePagesCpu ↔ p ∈ s.pendingPages
  keys : (s.pendingReuse.map Prod.fst).Nodup
  ids : c.isIdOwner → Ids c s

theorem inv_clear (c : AllocConfig) : Inv c (clear c) := by
  refine ⟨⟨c.watermarkOk_start, rfl, fun p v hv => ?_, nodup_nil, fun p => ?_⟩, fun v p => ?_,
    ?_, fun p => ?_, nodup_nil, fun howner => ⟨?_, fun v => ?_, fun v p hv => ?_, ?_⟩⟩
  · simp only [clear] at hv
    split_ifs at hv with h0
    exact .inl h0
  · refine iff_of_false not_mem_nil fun h => c.not_inBand_start p h.1
  · simp only [clear]
    split_ifs <;> simp_all [eq_comm]
  · simp [clear, pendingPages, c.allocatedPages_start]
  · simp [clear, pendingPages]
  · simp only [clear, howner, if_true]
    exact nodup_range'
  · have := c.minPageIndex_pos
    simp only [clear, howner, if_true, mem_range'_1]
    split_ifs with h0
    · simp; omega
    · simp; omega
  · simp only [clear] at hv
    split_ifs at hv with h0
    exact .inl h0
  · simp [clear, howner]

end MultiEndedAllocator

end SglangRuntime.MultiEnded
