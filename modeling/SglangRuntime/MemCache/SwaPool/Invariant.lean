import SglangRuntime.MemCache.SwaPool.Rows

/-!
# Memory cache — the mapping and the free lists of both sides

`Core` ties the table to the lists: a SWA page is in a list of the SWA side or mapped to, and never both;
a full page with entries is in no list of the full side.  It is kept when both sides hand out pages
(`Core.grow`) and when entries are cleared and their pages returned (`Core.freeSwa`).
-/

namespace SglangRuntime

open Foundation List PagedAllocator PagedPool Int

/-! ### The pages of `free` -/

namespace PagedAllocator

variable {ps : Nat} {idx l l' : List Slot} {p : Int}

theorem mem_pageIds : p ∈ pageIds ps idx ↔ ∃ x ∈ idx, x / (ps : Int) = p := by
  unfold pageIds
  split_ifs with h1
  · subst h1
    simp
  · simp

theorem nodup_pageIds (h : ps = 1 → idx.Nodup) : (pageIds ps idx).Nodup := by
  unfold pageIds
  split_ifs with h1
  · exact h h1
  · exact nodup_unique _

theorem count_pageIds_append (h : ∀ x ∈ l', x / (ps : Int) ∉ pageIds ps l) (p : Int) :
    (pageIds ps (l ++ l')).count p = (pageIds ps l).count p + (pageIds ps l').count p := by
  by_cases h1 : ps = 1
  · simp [pageIds, h1]
  simp only [(nodup_pageIds fun e => absurd e h1).count, mem_pageIds]
  by_cases hp : ∃ x ∈ l', x / (ps : Int) = p
  · obtain ⟨x, hx, rfl⟩ := hp
    have hno := h x hx
    rw [mem_pageIds] at hno
    rw [if_neg hno, if_pos ⟨x, mem_append_right _ hx, rfl⟩, if_pos ⟨x, hx, rfl⟩]
  have hiff : (∃ x ∈ l ++ l', x / (ps : Int) = p) ↔ ∃ x ∈ l, x / (ps : Int) = p := by
    constructor
    · rintro ⟨x, hx, e⟩
      exact ⟨x, (mem_append.mp hx).resolve_right fun hx' => hp ⟨x, hx', e⟩, e⟩
    · rintro ⟨x, hx, e⟩
      exact ⟨x, mem_append_left _ hx, e⟩
  rw [if_neg hp, Nat.add_zero]
  exact if_congr hiff rfl rfl

@[simp] theorem pageIds_nil : pageIds ps [] = [] := by
  unfold pageIds
  split_ifs <;> rfl

theorem count_free (c : PoolConfig) (a : PagedAllocator) (idx : List Slot) (p : Int) :
    (a.free c idx).count p = a.count p + (pageIds c.pageSize idx).count p := by
  unfold free
  split_ifs with h0 h1 h2
  · subst h0
    simp
  · simp only [count, pageIds, if_pos h1, count_append]
    omega
  · simp only [count, pageIds, if_pos h1, count_append]
    omega
  · rw [count_releasePageIds, pageIds, if_neg h1]

/-! ### What an allocation takes -/

section Took

variable {c : PoolConfig} {a a' : PagedAllocator} {k n : Nat}

/-- Without sorting nothing is ever put into the release list. -/
def Merged (c : PoolConfig) (a : PagedAllocator) : Prop := c.needSort = false → a.releasePages = []

theorem Merged.sortFor (h : a.Merged c) (k : Nat) : (a.sortFor c k).Merged c := by
  intro hs
  have hsame : a.sortFor c k = a := by simp [PagedAllocator.sortFor, hs]
  rw [hsame]
  exact h hs

theorem Merged.free (h : a.Merged c) (idx : List Slot) : (a.free c idx).Merged c := by
  intro hs
  have := h hs
  simp only [PagedAllocator.free, releasePageIds, hs]
  split_ifs <;> first | exact this | contradiction

theorem length_mergeAndSortFree (a : PagedAllocator) :
    a.mergeAndSortFree.freePages.length = a.availablePages := by
  unfold mergeAndSortFree availablePages
  split_ifs with h
  · simp
  · simp at h
    simp [h]

/-- A call that counts on `n` pages at most finds them if the lists have them. -/
theorem le_length_sortFor (h : a.Merged c) (hk : n ≤ k) (hn : n ≤ a.availablePages) :
    n ≤ (a.sortFor c k).freePages.length := by
  unfold sortFor
  split_ifs with hs
  · rwa [length_mergeAndSortFree]
  by_cases hns : c.needSort
  · have : ¬ a.freePages.length < k := by simpa [hns] using hs
    omega
  · have := h (by simpa using hns)
    simpa [availablePages, this] using hn

theorem length_sortFor_le (c : PoolConfig) (a : PagedAllocator) (k : Nat) :
    (a.sortFor c k).freePages.length ≤ a.availablePages := by
  unfold sortFor
  split_ifs
  · rw [length_mergeAndSortFree]
  · exact Nat.le_add_right _ _

/-- The first pages of a list that the allocator has are taken. -/
structure Took (c : PoolConfig) (a a' : PagedAllocator) (free : List Int) (n : Nat) : Prop where
  enough : n ≤ free.length
  count : ∀ p, a'.count p + (free.take n).count p = a.count p
  sub : ∀ p, free.count p ≤ a.count p
  merged : a.Merged c → a'.Merged c

theorem took_sortFor (a : PagedAllocator) (h : n ≤ (a.sortFor c k).freePages.length) :
    Took c a { a.sortFor c k with freePages := (a.sortFor c k).freePages.drop n }
      (a.sortFor c k).freePages n where
  enough := h
  count p := by rw [count_drop, count_sortFor]
  sub p := by
    rw [← count_sortFor (c := c) a k p, count, count_append]
    exact Nat.le_add_right _ _
  merged hm := hm.sortFor k

/-- A refused call takes nothing. -/
theorem took_nothing (a : PagedAllocator) (k : Nat) : Took c a (a.sortFor c k) [] 0 where
  enough := Nat.le_refl 0
  count p := by simp [count_sortFor]
  sub p := by simp
  merged hm := hm.sortFor k

end Took

variable {c : PoolConfig} {a a' : PagedAllocator} {out : List Slot} {batch : List DecodeReq}

theorem alloc_spec {n : Nat} (h : a.alloc c n = some (out, a')) :
    ∃ free, Took c a a' free (n / c.pageSize) ∧
      out = rowSlots c.pageSize (free.take (n / c.pageSize)) 0 (n / c.pageSize * c.pageSize) := by
  simp only [alloc] at h
  split_ifs at h with hlt
  cases h
  have hle := Nat.le_of_not_lt hlt
  refine ⟨_, took_sortFor a hle, ?_⟩
  have hlen : ((a.sortFor c (n / c.pageSize)).freePages.take (n / c.pageSize)).length =
      n / c.pageSize := by
    rw [length_take, Nat.min_eq_left hle]
  rw [flatMap_eq_rowSlots c.pageSize_pos, hlen]

theorem allocExtend_spec {batch : List Extension} {outs : List (List Slot)}
    (h : a.allocExtend c batch = some (outs, a')) :
    ∃ free, Took c a a' free (batch.map (·.numNewPages c.pageSize)).sum ∧
      outs = allocExtendKernel c.pageSize batch free := by
  simp only [allocExtend] at h
  split_ifs at h with hlt
  cases h
  exact ⟨_, took_sortFor a (Nat.le_of_not_lt hlt), rfl⟩

theorem allocDecode_spec (h : a.allocDecode c batch = some (out, a')) :
    ∃ free, Took c a a' free (batch.filter fun d => d.seqLen % c.pageSize == 1).length ∧
      out = allocDecodeKernel c.pageSize batch free := by
  simp only [allocDecode] at h
  split_ifs at h with hlt
  cases h
  exact ⟨_, took_sortFor a (Nat.le_of_not_lt hlt), rfl⟩

theorem allocDecode_eq_none : a.allocDecode c batch = none ↔
    (a.sortFor c batch.length).freePages.length <
      (batch.filter fun d => d.seqLen % c.pageSize == 1).length := by
  simp only [allocDecode]
  split_ifs with h <;> simp [h]

end PagedAllocator

namespace SwaPool

open PagedAllocator

variable {c : SwaConfig} {a : SwaPool} {filled filled' : Int → Nat} {V V' : TableView}
  {idx : List Slot} {p q : Int} {x : Int}

theorem count_freeFull (a : PagedAllocator) (idx : List Slot) (p : Int) :
    (a.free c.full idx).count p = a.count p + (pageIds c.pageSize idx).count p :=
  count_free c.full a idx p

theorem count_freeSwa (a : PagedAllocator) (idx : List Slot) (q : Int) :
    (a.free c.swa idx).count q = a.count q + (pageIds c.pageSize idx).count q :=
  count_free c.swa a idx q

/-- How often full page `p` is in the lists of the full side and the open group. -/
def fullTotal (c : SwaConfig) (a : SwaPool) (p : Int) : Nat :=
  a.fullAttnAllocator.count p + (a.pendingFull c).count p

/-- How often SWA page `q` is in the lists of the SWA side and the pending SWA group. -/
def swaTotal (c : SwaConfig) (a : SwaPool) (q : Int) : Nat :=
  a.swaAttnAllocator.count q + (a.pendingSwa c).count q

/-- A page of the full side is in one list at most, and in none while callers hold slots of it. -/
structure FullOk (c : SwaConfig) (total filled : Int → Nat) : Prop where
  le : ∀ p, total p ≤ 1
  mem : ∀ p, 0 < total p ∨ 0 < filled p → p ∈ allPages c.full
  sep : ∀ p, 0 < filled p → total p = 0

structure Core (c : SwaConfig) (a : SwaPool) (filled : Int → Nat) (V : TableView) : Prop where
  rep : Represents c.pageSize a.fullToSwaIndexMapping V
  view : ViewOk c filled V
  full_le : ∀ p, fullTotal c a p ≤ 1
  full_mem : ∀ p, 0 < fullTotal c a p ∨ 0 < filled p → p ∈ allPages c.full
  full_sep : ∀ p, 0 < filled p → fullTotal c a p = 0
  mapped_held : ∀ p, 0 < V.mapped p →
    a.fullAttnAllocator.count p = 0 ∧ p ∈ allPages c.full
  swa_le : ∀ q, swaTotal c a q ≤ 1
  swa_mem : ∀ q, 0 < swaTotal c a q ∨ V.Owns q ↔ q ∈ allPages c.swa
  swa_sep : ∀ q, V.Owns q → swaTotal c a q = 0

namespace Core

theorem nonneg_of_mem {g : PoolConfig} (h : p ∈ allPages g) : 0 < p := by
  have := (mem_allPages.mp h).1
  omega

section

variable (h : Core c a filled V)
include h

theorem full : FullOk c (fullTotal c a) filled :=
  ⟨h.full_le, h.full_mem, h.full_sep⟩

theorem target_pos (hp : 0 < V.mapped p) : 0 < V.target p :=
  nonneg_of_mem ((h.swa_mem _).mp (.inr ⟨p, hp, rfl⟩))

theorem fresh {freeFull freeSwa : List Int}
    (hf : ∀ p, freeFull.count p ≤ a.fullAttnAllocator.count p)
    (hs : ∀ q, freeSwa.count q ≤ a.swaAttnAllocator.count q) : Fresh filled V freeFull freeSwa where
  nodupFull := nodup_iff_count_le_one.mpr fun p =>
    (hf p).trans ((Nat.le_add_right _ _).trans (h.full_le p))
  nodupSwa := nodup_iff_count_le_one.mpr fun q =>
    (hs q).trans ((Nat.le_add_right _ _).trans (h.swa_le q))
  unfilled p hp := by
    by_contra h0
    have h₁ := h.full_sep p (Nat.pos_of_ne_zero h0)
    have h₂ := hf p
    have h₃ := count_pos_iff.mpr hp
    unfold fullTotal at h₁
    omega
  unmapped p hp := by
    by_contra h0
    have h₁ := (h.mapped_held p (Nat.pos_of_ne_zero h0)).1
    have h₂ := hf p
    have h₃ := count_pos_iff.mpr hp
    omega
  unowned q hq ho := by
    have h₁ := h.swa_sep q ho
    have h₂ := hs q
    have h₃ := count_pos_iff.mpr hq
    unfold swaTotal at h₁
    omega

/-- Both sides hand out pages, and entries are written. -/
theorem grow {a' : SwaPool} {newFull newSwa : List Int}
    (hpf : a'.pendingFull c = a.pendingFull c) (hps : a'.pendingSwa c = a.pendingSwa c)
    (hrep : Represents c.pageSize a'.fullToSwaIndexMapping V')
    (hok : ViewOk c filled' V') (hg : Growth filled V filled' V' newFull newSwa)
    (hfull : ∀ p, a'.fullAttnAllocator.count p + newFull.count p = a.fullAttnAllocator.count p)
    (hswa : ∀ q, a'.swaAttnAllocator.count q + newSwa.count q = a.swaAttnAllocator.count q) :
    Core c a' filled' V' := by
  have hft (p) : fullTotal c a' p + newFull.count p = fullTotal c a p := by
    rw [fullTotal, fullTotal, hpf, ← hfull]
    omega
  have hst (q) : swaTotal c a' q + newSwa.count q = swaTotal c a q := by
    rw [swaTotal, swaTotal, hps, ← hswa]
    omega
  -- a page that callers hold now: they did before, or it is new
  have hheld : ∀ p, 0 < filled' p → 0 < filled p ∨ p ∈ newFull := by
    intro p hp
    by_contra hno
    rw [not_or] at hno
    have := (hg.same p hno.2 (by omega)).1
    omega
  refine ⟨hrep, hok, fun p => ?_, fun p hp => ?_, fun p hp => ?_, fun p hp => ?_, fun q => ?_,
    fun q => ?_, fun q hq => ?_⟩
  · exact (Nat.le_add_right _ _).trans ((hft p).le.trans (h.full_le p))
  · have h₁ := hft p
    rcases hp with hp | hp
    · exact h.full_mem p (.inl (by omega))
    · rcases hheld p hp with hp | hp
      · exact h.full_mem p (.inr hp)
      · have := count_pos_iff.mpr hp
        exact h.full_mem p (.inl (by omega))
  · have h₁ := hft p
    have h₂ := h.full_le p
    rcases hheld p hp with hp | hp
    · have := h.full_sep p hp
      omega
    · have := count_pos_iff.mpr hp
      omega
  · have h₁ := hfull p
    by_cases hnew : p ∈ newFull
    · have h₂ := count_pos_iff.mpr hnew
      have h₃ := h.full_le p
      unfold fullTotal at h₃
      refine ⟨by omega, h.full_mem p (.inl ?_)⟩
      unfold fullTotal
      omega
    · by_cases h0 : filled p = 0
      · rw [(hg.same p hnew h0).2] at hp
        obtain ⟨h₂, h₃⟩ := h.mapped_held p hp
        exact ⟨by omega, h₃⟩
      · have h₂ := h.full_sep p (Nat.pos_of_ne_zero h0)
        unfold fullTotal at h₂
        exact ⟨by omega, h.full_mem p (.inr (Nat.pos_of_ne_zero h0))⟩
  · exact (Nat.le_add_right _ _).trans ((hst q).le.trans (h.swa_le q))
  · have h₁ := hst q
    rw [← h.swa_mem q, hg.owns]
    by_cases hnew : q ∈ newSwa
    · have := count_pos_iff.mpr hnew
      exact ⟨fun _ => .inl (by omega), fun _ => .inr (.inr hnew)⟩
    · have := count_eq_zero.mpr hnew
      have e : swaTotal c a' q = swaTotal c a q := by omega
      rw [e]
      simp [hnew]
  · have h₁ := hst q
    have h₂ := h.swa_le q
    rcases (hg.owns q).mp hq with hq | hq
    · have := h.swa_sep q hq
      omega
    · have := count_pos_iff.mpr hq
      omega

/-- The full side and the callers change, the table and the SWA side do not. -/
theorem withFull {a' : SwaPool}
    (hm : a'.fullToSwaIndexMapping = a.fullToSwaIndexMapping)
    (hs : ∀ q, swaTotal c a' q = swaTotal c a q)
    (hfilled : ∀ p, filled' p = filled p ∨ filled' p = 0) (hf : FullOk c (fullTotal c a') filled')
    (hmapped : ∀ p, 0 < V.mapped p → a'.fullAttnAllocator.count p = 0) : Core c a' filled' V := by
  refine ⟨hm ▸ h.rep, ⟨h.view.separate, fun p => ?_, h.view.mapped_le, fun p h₁ h₂ => ?_⟩, hf.le,
    hf.mem, hf.sep, fun p hp => ⟨hmapped p hp, (h.mapped_held p hp).2⟩, ?_, ?_, ?_⟩
  · rcases hfilled p with e | e
    · exact e ▸ h.view.filled_le p
    · omega
  · have e : filled' p = filled p := (hfilled p).resolve_right (by omega)
    rw [e] at h₁ h₂ ⊢
    exact h.view.partialPage p h₁ h₂
  · simpa only [hs] using h.swa_le
  · simpa only [hs] using h.swa_mem
  · simpa only [hs] using h.swa_sep

end

end Core

/-! ### Clearing entries -/

theorem mem_pageSlots {ps : Nat} (hn : 0 < ps) {pages : List Int} :
    x ∈ pageSlots ps pages ↔ x / (ps : Int) ∈ pages := by
  simp only [pageSlots, mem_flatMap, mem_map, mem_range]
  constructor
  · rintro ⟨p, hp, o, ho, rfl⟩
    rwa [(slot_div_mod p ho).1]
  intro hp
  have hps : (ps : Int) ≠ 0 := by omega
  obtain ⟨o, ho⟩ := eq_ofNat_of_zero_le (emod_nonneg x hps)
  have hlt := emod_lt_of_pos x (show (0 : Int) < ps by omega)
  refine ⟨x / (ps : Int), hp, o, by omega, ?_⟩
  have := mul_ediv_add_emod x ps
  rw [ho, mul_comm] at this
  exact this

theorem mem_mappingIndices :
    x ∈ mappingIndices c idx ↔ x / (c.pageSize : Int) ∈ idx.map (· / (c.pageSize : Int)) := by
  unfold mappingIndices
  split_ifs with h1
  · rw [h1]
    simp
  · rw [mem_pageSlots c.pageSize_pos, mem_unique]

/-- The pages of `free_index`. -/
def Touched (c : SwaConfig) (idx : List Slot) (p : Int) : Prop :=
  p ∈ idx.map (· / (c.pageSize : Int))

instance : DecidablePred (Touched c idx) := fun p => inferInstanceAs (Decidable (p ∈ _))

/-- The slots that `free_swa` returns. -/
def swaIndices (c : SwaConfig) (m : Int → Int) (idx : List Slot) : List Slot :=
  ((mappingIndices c idx).map m).filter (0 < ·)

section

variable (h : Core c a filled V)
include h

theorem Core.mem_swaIndices (hidx : ∀ x ∈ idx, 0 ≤ x / (c.pageSize : Int)) :
    q ∈ pageIds c.pageSize (swaIndices c a.fullToSwaIndexMapping idx) ↔
      ∃ p, Touched c idx p ∧ 0 < V.mapped p ∧ V.target p = q := by
  have hn := c.pageSize_pos
  rw [mem_pageIds]
  constructor
  · rintro ⟨y, hy, rfl⟩
    simp only [swaIndices, mem_filter, mem_map, decide_eq_true_eq] at hy
    obtain ⟨⟨x, hx, rfl⟩, hpos⟩ := hy
    have ht := mem_mappingIndices.mp hx
    have hx0 : 0 ≤ x := by
      obtain ⟨z, hz, e⟩ := mem_map.mp ht
      have h₁ := hidx z hz
      rw [e] at h₁
      have h₂ := mul_ediv_add_emod x c.pageSize
      have h₃ := emod_nonneg x (show (c.pageSize : Int) ≠ 0 by omega)
      have h₄ := mul_nonneg (natCast_nonneg c.pageSize) h₁
      omega
    obtain ⟨h₁, -, h₂, -⟩ := h.rep.of_mapped hn hx0 (ne_of_gt hpos)
    have h₃ := emod_nonneg x (show (c.pageSize : Int) ≠ 0 by omega)
    exact ⟨x / (c.pageSize : Int), ht, by omega, h₂.symm⟩
  · rintro ⟨p, ht, hp, rfl⟩
    have hp0 : 0 ≤ p := by
      obtain ⟨z, hz, rfl⟩ := mem_map.mp ht
      exact hidx z hz
    have hpage := slot_div_mod (n := c.pageSize) p hn
    have hx0 : 0 ≤ p * (c.pageSize : Int) + ((0 : Nat) : Int) := by
      have := mul_nonneg hp0 (natCast_nonneg c.pageSize)
      omega
    have hval := h.rep _ hx0
    rw [hpage.1, hpage.2, if_pos (by omega)] at hval
    have hdiv := (slot_div_mod (n := c.pageSize) (V.target p) hn).1
    refine ⟨V.target p * (c.pageSize : Int) + ((0 : Nat) : Int), ?_, hdiv⟩
    simp only [swaIndices, mem_filter, mem_map, decide_eq_true_eq]
    refine ⟨⟨_, mem_mappingIndices.mpr (by rw [hpage.1]; exact ht), hval⟩, ?_⟩
    have := mul_pos (h.target_pos hp) (show (0 : Int) < c.pageSize by omega)
    rwa [Int.natCast_zero, Int.add_zero]

theorem Core.entries_inj {y : Int} (hx : 0 ≤ x) (hy : 0 ≤ y)
    (h0 : a.fullToSwaIndexMapping x ≠ 0)
    (e : a.fullToSwaIndexMapping x = a.fullToSwaIndexMapping y) : x = y := by
  have hn := c.pageSize_pos
  obtain ⟨hx₁, -, hx₂, hx₃⟩ := h.rep.of_mapped hn hx h0
  obtain ⟨hy₁, -, hy₂, hy₃⟩ := h.rep.of_mapped hn hy (e ▸ h0)
  have hmod := emod_nonneg x (show (c.pageSize : Int) ≠ 0 by omega)
  have hmod' := emod_nonneg y (show (c.pageSize : Int) ≠ 0 by omega)
  have hpage := h.view.separate _ _ (by omega) (by omega) (hx₂.symm.trans (e ▸ hy₂))
  have hplace : x % (c.pageSize : Int) = y % (c.pageSize : Int) := by rw [← hx₃, e, hy₃]
  rw [← mul_ediv_add_emod x c.pageSize, ← mul_ediv_add_emod y c.pageSize, hpage, hplace]

theorem Core.nodup_swaIndices
    (hidx : ∀ x ∈ idx, 0 ≤ x / (c.pageSize : Int)) (hnd : c.pageSize = 1 → idx.Nodup) :
    (pageIds c.pageSize (swaIndices c a.fullToSwaIndexMapping idx)).Nodup := by
  refine nodup_pageIds fun h1 => ?_
  have hind : mappingIndices c idx = idx := if_pos h1
  rw [swaIndices, hind, filter_map]
  refine ((hnd h1).filter _).map_on fun x hx y hy e => ?_
  simp only [mem_filter, Function.comp_apply, decide_eq_true_eq] at hx hy
  have hx0 := hidx x hx.1
  have hy0 := hidx y hy.1
  rw [h1] at hx0 hy0
  exact h.entries_inj (by simpa using hx0) (by simpa using hy0) (ne_of_gt hx.2) e

/-- **Entries are cleared** and the pages they map to go to the SWA lists or the pending group. -/
theorem Core.freeSwa (hidx : ∀ x ∈ idx, 0 ≤ x / (c.pageSize : Int))
    (hnd : c.pageSize = 1 → idx.Nodup)
    (hwhole : ∀ x ∈ idx, filled (x / (c.pageSize : Int)) = c.pageSize ∨
      filled (x / (c.pageSize : Int)) = 0) :
    Core c (a.freeSwa c idx) filled (V.wipe (Touched c idx)) := by
  by_cases h0 : idx = []
  · subst h0
    have hwipe : V.wipe (Touched c []) = V := by
      have hno : ∀ p, ¬ Touched c [] p := fun p => not_mem_nil
      cases V
      simp [TableView.wipe, hno]
    exact h
  have hmem := fun q => h.mem_swaIndices (q := q) hidx
  have hids := h.nodup_swaIndices hidx hnd
  generalize hdef : pageIds c.pageSize (swaIndices c a.fullToSwaIndexMapping idx) = ids at hmem hids
  -- what is returned was mapped to, so it was in no list
  have hzero : ∀ q ∈ ids, V.Owns q ∧ swaTotal c a q = 0 := by
    intro q hq
    obtain ⟨p, -, hp, e⟩ := (hmem q).mp hq
    exact ⟨⟨p, hp, e⟩, h.swa_sep q ⟨p, hp, e⟩⟩
  have htotal : ∀ q, swaTotal c (a.freeSwa c idx) q = swaTotal c a q + ids.count q := by
    intro q
    rw [SwaPool.freeSwa, if_neg h0]
    dsimp only
    split_ifs with hg
    · have hc := count_freeSwa (c := c) a.swaAttnAllocator
        (swaIndices c a.fullToSwaIndexMapping idx) q
      rw [hdef] at hc
      change (a.swaAttnAllocator.free c.swa (swaIndices c a.fullToSwaIndexMapping idx)).count q +
        (a.pendingSwa c).count q = _
      rw [hc, swaTotal]
      omega
    · have hsep : ∀ x ∈ swaIndices c a.fullToSwaIndexMapping idx,
          x / (c.pageSize : Int) ∉ pageIds c.pageSize a.swaFreeGroup.flatten := by
        intro x hx hin
        have hq : x / (c.pageSize : Int) ∈ ids := hdef ▸ mem_pageIds.mpr ⟨x, hx, rfl⟩
        have h₁ := (hzero _ hq).2
        have h₂ := count_pos_iff.mpr hin
        unfold swaTotal pendingSwa at h₁
        omega
      have hc := count_pageIds_append hsep q
      rw [hdef] at hc
      have hflat : (a.swaFreeGroup ++ [swaIndices c a.fullToSwaIndexMapping idx]).flatten =
          a.swaFreeGroup.flatten ++ swaIndices c a.fullToSwaIndexMapping idx := by simp
      change a.swaAttnAllocator.count q + (pageIds c.pageSize
        (a.swaFreeGroup ++ [swaIndices c a.fullToSwaIndexMapping idx]).flatten).count q = _
      rw [hflat, hc, swaTotal, pendingSwa]
      omega
  have hfull : fullTotal c (a.freeSwa c idx) = fullTotal c a ∧
      (a.freeSwa c idx).fullAttnAllocator = a.fullAttnAllocator ∧
      (a.freeSwa c idx).fullToSwaIndexMapping =
        clearAll a.fullToSwaIndexMapping (mappingIndices c idx) := by
    rw [SwaPool.freeSwa, if_neg h0]
    dsimp only
    split_ifs <;> exact ⟨rfl, rfl, rfl⟩
  obtain ⟨hft, hfa, hmapping⟩ := hfull
  have howns := fun q => h.view.separate.owns_wipe (d := Touched c idx) (q := q)
  simp only [← hmem] at howns
  refine ⟨?_, ⟨h.view.separate.wipe, h.view.filled_le, fun p => ?_, fun p h₁ h₂ => ?_⟩, ?_, ?_, ?_,
    fun p hp => ?_, fun q => ?_, fun q => ?_, fun q hq => ?_⟩
  · rw [hmapping]
    exact h.rep.wipe fun x _ => mem_mappingIndices
  · simp only [TableView.wipe]
    split_ifs
    · exact Nat.zero_le _
    · exact h.view.mapped_le p
  · have hno : ¬ Touched c idx p := by
      intro ht
      obtain ⟨x, hx, rfl⟩ := mem_map.mp ht
      have := hwhole x hx
      omega
    have hkeep : (V.wipe (Touched c idx)).mapped p = V.mapped p := if_neg hno
    rw [hkeep]
    exact h.view.partialPage p h₁ h₂
  · rw [hft]
    exact h.full_le
  · rw [hft]
    exact h.full_mem
  · rw [hft]
    exact h.full_sep
  · rw [hfa]
    exact h.mapped_held p (TableView.mapped_wipe_pos.mp hp).1
  · rw [htotal]
    by_cases hq : q ∈ ids
    · rw [(hzero q hq).2, count_eq_one_of_mem hids hq]
    · rw [count_eq_zero.mpr hq]
      exact h.swa_le q
  · rw [htotal, howns, ← h.swa_mem q]
    by_cases hq : q ∈ ids
    · have := count_pos_iff.mpr hq
      exact ⟨fun _ => .inr (hzero q hq).1, fun _ => .inl (by omega)⟩
    · rw [count_eq_zero.mpr hq]
      simp [hq]
  · obtain ⟨ho, hq⟩ := (howns q).mp hq
    rw [htotal, h.swa_sep q ho, count_eq_zero.mpr hq]

end

end SwaPool

end SglangRuntime
