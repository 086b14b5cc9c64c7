import SglangRuntime.MemCache.PagedPool.Holders
import SglangRuntime.MemCache.PagedPool.Segments

/-!
# Memory cache — the pages of the allocator and of its callers

In every run the free list, the release list, the pages of the open free group and the pages that
callers hold are `1, …, num_pages`, each once (`run_partition`).  This needs `alloc_decode` to be called
with pages of more than one slot only: the number of new pages that it takes off the free list is the
number of lengths that are `1` modulo the page size, and no length is `1` modulo `1`
(`allocDecode_pageSize_one`).
-/

namespace SglangRuntime.PagedPool

open Foundation List PagedAllocator PagedPool Prod

variable {c : PoolConfig} {Caller : Type} [DecidableEq Caller] {a a' : PagedPool}
  {s s' : State Caller} {e : Event Caller} {ids : List Int} {idx : List Slot} {p : Int} {r : Caller}
  {row : List Slot} {segs : List (Nat × Nat)}

/-- How often page `p` is in the allocator, with the open free group. -/
def total (c : PoolConfig) (a : PagedPool) (p : Int) : Nat := a.count p + (a.pending c).count p

/-- A call that puts the pages `ids` back. -/
def Returned (c : PoolConfig) (a a' : PagedPool) (ids : List Int) : Prop :=
  ∀ p, total c a' p = total c a p + ids.count p

/-- Every page is in the allocator or with a caller, once. -/
def Inv (c : PoolConfig) (s : State Caller) : Prop :=
  ∀ p, total c s.pool p + (s.held.map snd).count p = (allPages c).count p

section Inv

omit [DecidableEq Caller]

section

variable (h : Inv c s)
include h

theorem Inv.total_le (p : Int) : total c s.pool p + (s.held.map snd).count p ≤ 1 :=
  h p ▸ nodup_iff_count_le_one.mp (nodup_allPages c) p

theorem Inv.nodup_held : (s.held.map snd).Nodup :=
  nodup_iff_count_le_one.mpr fun p => (Nat.le_add_left _ _).trans (h.total_le p)

theorem Inv.held_allPages {x : Caller × Int} (hx : x ∈ s.held) : x.2 ∈ allPages c := by
  have hc := count_pos_iff.mpr (mem_map_of_mem (f := snd) hx)
  have := h x.2
  exact count_pos_iff.mp (by omega)

/-- Pages of callers are not in the allocator. -/
theorem Inv.total_eq_zero (hp : p ∈ s.held.map snd) : total c s.pool p = 0 := by
  have := h.total_le p
  have := count_pos_iff.mpr hp
  omega

variable (k : Nat)

/-- The free list is at most what the allocator has, also after a merge. -/
theorem Inv.sorted_le (p : Int) :
    (s.pool.sortFor c k).freePages.count p + (s.held.map snd).count p ≤ 1 := by
  have h₁ := h.total_le p
  have h₂ := PagedAllocator.count_sortFor (c := c) s.pool.toPagedAllocator k p
  simp only [PagedAllocator.count, count_append, total] at h₁ h₂
  omega

theorem Inv.sorted_nodup : (s.pool.sortFor c k).freePages.Nodup :=
  nodup_iff_count_le_one.mpr fun p => (Nat.le_add_right _ _).trans (h.sorted_le k p)

theorem Inv.sorted_new (hp : p ∈ (s.pool.sortFor c k).freePages) :
    p ∉ s.held.map snd := by
  intro hh
  have h₁ := h.sorted_le k p
  have h₂ := count_pos_iff.mpr hp
  have h₃ := count_pos_iff.mpr hh
  omega

end

/-- A shortfall leaves the merged lists. -/
theorem total_sorted (a : PagedPool) (k : Nat) (p : Int) :
    total c { a with toPagedAllocator := a.sortFor c k } p = total c a p := by
  simp only [total, count_sortFor]
  rfl

/-- The callers get the first `n` pages of the free list. -/
theorem Inv.grant (h : Inv c s) (k n : Nat) {held' : List (Caller × Int)}
    (hheld : ∀ p, (held'.map snd).count p =
      (s.held.map snd).count p + ((s.pool.sortFor c k).freePages.take n).count p) :
    Inv c ⟨{ s.pool with toPagedAllocator :=
      { s.pool.sortFor c k with freePages := (s.pool.sortFor c k).freePages.drop n } }, held'⟩ := by
  intro p
  have h₁ := h p
  have h₂ := count_drop (s.pool.sortFor c k) n p
  rw [count_sortFor] at h₂
  have h₃ := hheld p
  change count _ p + (s.pool.pending c).count p + _ = _
  unfold total at h₁
  dsimp only at h₁ h₂ h₃ ⊢
  omega

end Inv

/-! ### Giving back -/

theorem returned_releasePageIds (hg : a.isNotInFreeGroup) (ids : List Int) :
    Returned c a (a.releasePageIds c ids) ids := by
  intro p
  simp only [total, releasePageIds, pending, hg, if_true, count_releasePageIds]
  omega

theorem count_unique_append {l l' : List Int} (h : ∀ p ∈ l', p ∉ l) (p : Int) :
    (unique (l ++ l')).count p = (unique l).count p + (unique l').count p := by
  simp only [(nodup_unique _).count, mem_unique, mem_append]
  by_cases hp : p ∈ l'
  · rw [if_pos (.inr hp), if_neg (h p hp), if_pos hp]
  · simp [hp]

theorem returned_free (hnew : ∀ x ∈ idx, total c a (x / (c.pageSize : Int)) = 0) :
    Returned c a (a.free c idx) (unique (idx.map (· / (c.pageSize : Int)))) := by
  unfold free
  split_ifs with hidx hg
  · intro p
    simp [hidx, unique]
  · exact returned_releasePageIds hg _
  · intro p
    have hsep : ∀ q ∈ idx.map (· / (c.pageSize : Int)),
        q ∉ a.freeGroup.flatten.map (· / (c.pageSize : Int)) := by
      intro q hq hq'
      obtain ⟨x, hx, rfl⟩ := mem_map.mp hq
      have h₀ := hnew x hx
      have hmem : x / (c.pageSize : Int) ∈ a.pending c := by
        rw [pending, if_neg hg]
        exact mem_append_left _ (mem_unique.mpr hq')
      have := count_pos_iff.mpr hmem
      unfold total at h₀
      omega
    simp only [total, pending, hg, if_false, flatten_append, flatten_cons,
      flatten_nil, append_nil, map_append, count_append,
      count_unique_append hsep, Bool.false_eq_true]
    omega

theorem returned_freeSegment (a : PagedPool) (s : List Slot × Nat) :
    Returned c a (a.freeSegment c s.1 s.2)
      (if s.1 = [] then [] else (pieces c s.1 s.2).flatten.map (· / (c.pageSize : Int))) := by
  unfold freeSegment
  split_ifs with hidx hg
  · exact fun p => rfl
  · exact returned_releasePageIds hg _
  · intro p
    simp only [total, pending, hg, if_false, flatten_append, map_append, count_append,
      Bool.false_eq_true]
    omega

theorem returned_foldl (segs : List (List Slot × Nat)) (a : PagedPool) :
    Returned c a (segs.foldl (fun a s => a.freeSegment c s.1 s.2) a) (segs.flatMap fun s =>
      if s.1 = [] then [] else (pieces c s.1 s.2).flatten.map (· / (c.pageSize : Int))) := by
  induction segs generalizing a with
  | nil => exact fun p => rfl
  | cons s segs ih =>
    intro p
    rw [foldl_cons, flatMap_cons, count_append, ih (a.freeSegment c s.1 s.2) p,
      returned_freeSegment a s p, Nat.add_assoc]

theorem returned_freeGroupBegin (hg : a.isNotInFreeGroup) : Returned c a a.freeGroupBegin [] := by
  intro p
  simp [total, pending, freeGroupBegin, hg, unique]

/-- The end of a group puts its pages back. -/
theorem returned_freeGroupEnd (hg : a.isNotInFreeGroup = false) :
    Returned c a (a.freeGroupEnd c) [] := by
  -- the slots that `free` kept
  obtain ⟨b, hb, hopen, hreps, hcount⟩ : ∃ b : PagedPool,
      (if a.freeGroup = [] then { a with isNotInFreeGroup := true }
        else free c { a with isNotInFreeGroup := true } a.freeGroup.flatten) = b ∧
      b.isNotInFreeGroup ∧ b.freePageRepsGroup = a.freePageRepsGroup ∧
      ∀ p, b.count p = a.count p +
        (unique (a.freeGroup.flatten.map (· / (c.pageSize : Int)))).count p := by
    refine ⟨_, rfl, ?_⟩
    split_ifs with h0
    · exact ⟨rfl, rfl, fun p => by simp [h0, unique]⟩
    unfold free
    split_ifs with h1
    · exact ⟨rfl, rfl, fun p => by simp [h1, unique]⟩
    · exact ⟨rfl, rfl, fun p => count_releasePageIds _ _ _⟩
    · exact absurd rfl ‹_›
  have hend : a.freeGroupEnd c = if b.freePageRepsGroup = [] then b else
      { b.releasePageIds c (b.freePageRepsGroup.flatten.map (· / (c.pageSize : Int))) with
        freePageRepsGroup := [] } := by
    rw [← hb]
    rfl
  intro p
  rw [hend]
  split_ifs with h0
  · simp only [total, pending, hopen, hg, if_true, hcount, ← hreps, h0]
    simp
  · simp only [total, pending, releasePageIds, hopen, hg, if_true,
      count_releasePageIds, hcount, hreps]
    simp [Nat.add_assoc]

/-! ### One step -/

theorem Inv.give (h : Inv c s) {given : List (Caller × Slot)}
    (hg : ∀ g ∈ given, (g.1, g.2 / (c.pageSize : Int)) ∈ s.held) (hr : Returned c s.pool a' ids)
    (hids : ids.Nodup) (hmem : ∀ p, p ∈ ids ↔ ∃ g ∈ given, g.2 / (c.pageSize : Int) = p) :
    Inv c ⟨a', letGo c s.held given⟩ := by
  intro p
  have h₁ := h p
  have h₂ := hr p
  have h₃ := count_letGo h.nodup_held hg hids hmem p
  dsimp only
  omega

theorem Inv.free (h : Inv c s) (ok : Allowed c s (.free r idx)) :
    Inv c (s.step c (.free r idx)) := by
  have hnew : ∀ x ∈ idx, total c s.pool (x / (c.pageSize : Int)) = 0 := fun x hx =>
    h.total_eq_zero (mem_map_of_mem (f := snd) (ok.1 (r, x) (mem_map_of_mem hx)))
  refine h.give ok.1 (returned_free hnew) (nodup_unique _) fun p => ?_
  simp [Event.given]

/-- One segment is the case of `free_segments` with one segment. -/
theorem freeSegments_singleton (a : PagedPool) (idx : List Slot) (pos : Nat) :
    a.freeSegments c [(idx, pos)] = a.freeSegment c idx pos := by
  by_cases hidx : idx = []
  · simp [freeSegments, trimmed, freeSegment, hidx]
  · simp [freeSegments, trimmed, hidx]

theorem Inv.freeSegments (h : Inv c s) {segs : List (List Slot × Nat)}
    (hg : ∀ g ∈ (segs.flatMap fst).map (r, ·), (g.1, g.2 / (c.pageSize : Int)) ∈ s.held)
    (hrow : RowParts c segs) :
    Inv c ⟨s.pool.freeSegments c segs, letGo c s.held ((segs.flatMap fst).map (r, ·))⟩ := by
  obtain ⟨ids, hids, hnd, hmem⟩ := hrow.returned
  have hr := returned_foldl (c := c) (trimmed c none segs) s.pool
  rw [hids] at hr
  refine h.give hg hr hnd fun p => ?_
  rw [hmem]
  simp only [mem_map, exists_exists_and_eq_and]

/-- The segments `(i, j)` of a row, as `free_segments` is given them. -/
def segmentsOf (row : List Slot) (segs : List (Nat × Nat)) : List (List Slot × Nat) :=
  segs.map fun s => (slice row s.1 s.2, s.1)

theorem mem_placed_segmentsOf {x : Slot × Nat} (h : x ∈ placed (segmentsOf row segs)) :
    ∃ s ∈ segs, s.1 ≤ x.2 ∧ x.2 < s.2 ∧ row[x.2]? = some x.1 := by
  obtain ⟨t, ht, hx⟩ := mem_placed.mp h
  obtain ⟨s, hs, rfl⟩ := mem_map.mp ht
  obtain ⟨hle, hget⟩ := mem_zipIdx.mp hx
  rw [slice, getElem?_drop, Nat.add_sub_cancel' hle] at hget
  have hlt : x.2 < s.2 := by
    have := getElem?_lt hget
    rw [length_take] at this
    omega
  rw [getElem?_take_of_lt hlt] at hget
  exact ⟨s, hs, hle, hlt, hget⟩

theorem rowParts_segmentsOf
    (hrow : ∀ (i j : Nat) (x y : Slot), row[i]? = some x → row[j]? = some y →
      (x / (c.pageSize : Int) = y / (c.pageSize : Int) ↔ i / c.pageSize = j / c.pageSize))
    (hle : ∀ s ∈ segs, s.1 ≤ s.2) (hasc : segs.Pairwise fun s t => s.2 ≤ t.1) :
    RowParts c (segmentsOf row segs) := by
  refine ⟨fun x hx y hy => ?_, pairwise_map.mpr (hasc.imp_of_mem fun {s t} hs _ hst => ?_)⟩
  · obtain ⟨-, -, -, -, hx⟩ := mem_placed_segmentsOf hx
    obtain ⟨-, -, -, -, hy⟩ := mem_placed_segmentsOf hy
    exact hrow _ _ _ _ hx hy
  have hs := hle s hs
  have hlen : (slice row s.1 s.2).length ≤ s.2 - s.1 := by
    rw [slice, length_drop, length_take]
    omega
  dsimp only
  omega

/-- **`free_segments` is exact.**  For ascending segments of a row whose pages are its own, every page
that a segment touches is released once, at once or into the open free group, and no other page is. -/
theorem freeSegments_exact (c : PoolConfig) (a : PagedPool) (row : List Slot)
    (hrow : ∀ (i j : Nat) (x y : Slot), row[i]? = some x → row[j]? = some y →
      (x / (c.pageSize : Int) = y / (c.pageSize : Int) ↔ i / c.pageSize = j / c.pageSize))
    (segs : List (Nat × Nat)) (hle : ∀ s ∈ segs, s.1 ≤ s.2)
    (hasc : segs.Pairwise fun s t => s.2 ≤ t.1) :
    ∃ ids : List Int, ids.Nodup ∧ Returned c a (a.freeSegments c (segmentsOf row segs)) ids ∧
      ∀ p, p ∈ ids ↔ ∃ s ∈ segs, ∃ i x, s.1 ≤ i ∧ i < s.2 ∧ row[i]? = some x ∧
        x / (c.pageSize : Int) = p := by
  obtain ⟨ids, hids, hnd, hmem⟩ := (rowParts_segmentsOf hrow hle hasc).returned
  have hr := returned_foldl (c := c) (trimmed c none (segmentsOf row segs)) a
  rw [hids] at hr
  refine ⟨ids, hnd, hr, fun p => (hmem p).trans ?_⟩
  constructor
  · rintro ⟨x, hx, rfl⟩
    obtain ⟨t, ht, hx⟩ := mem_flatMap.mp hx
    obtain ⟨i, hi⟩ := mem_iff_getElem?.mp hx
    have hplaced : (x, t.2 + i) ∈ placed (segmentsOf row segs) := by
      refine mem_placed.mpr ⟨t, ht, mem_zipIdx.mpr ⟨Nat.le_add_right _ _, ?_⟩⟩
      rw [Nat.add_sub_cancel_left]
      exact hi
    obtain ⟨s, hs, h₁, h₂, h₃⟩ := mem_placed_segmentsOf hplaced
    exact ⟨s, hs, _, x, h₁, h₂, h₃, rfl⟩
  · rintro ⟨s, hs, i, x, h₁, h₂, hx, rfl⟩
    refine ⟨x, mem_flatMap.mpr ⟨_, mem_map_of_mem hs, ?_⟩, rfl⟩
    refine mem_iff_getElem?.mpr ⟨i - s.1, ?_⟩
    rw [slice, getElem?_drop, Nat.add_sub_cancel' h₁, getElem?_take_of_lt h₂]
    exact hx

/-- Two segments inside the first of two pages, an empty one and one that crosses into the second. -/
theorem freeSegments_exact_sharedPage : ∃ ids : List Int, ids.Nodup ∧
    Returned ⟨4, by decide, 9, false⟩ (clear ⟨4, by decide, 9, false⟩)
      ((clear ⟨4, by decide, 9, false⟩).freeSegments ⟨4, by decide, 9, false⟩
        (segmentsOf [28, 29, 30, 31, 12, 13] [(0, 1), (1, 2), (2, 2), (3, 5)])) ids ∧
    ∀ p, p ∈ ids ↔ ∃ s ∈ [(0, 1), (1, 2), (2, 2), (3, 5)], ∃ i x, s.1 ≤ i ∧ i < s.2 ∧
      [28, 29, 30, 31, 12, 13][i]? = some x ∧ x / ((4 : Nat) : Int) = p := by
  refine freeSegments_exact ⟨4, by decide, 9, false⟩ _ _ (fun i j x y hi hj => ?_) _ (by decide)
    (by decide)
  have hi' := getElem?_lt hi
  have hj' := getElem?_lt hj
  simp only [length_cons, length_nil] at hi' hj'
  interval_cases i <;> interval_cases j <;> cases hi <;> cases hj <;> decide

section

variable (h : Inv c s)
include h

theorem Inv.freeSegment {pos : Nat}
    (ok : Allowed c s (.freeSegment r idx pos)) : Inv c (s.step c (.freeSegment r idx pos)) := by
  have hall : [(idx, pos)].flatMap fst = idx := by simp
  have hg := ok.1
  have hone := h.freeSegments (r := r) (by rw [hall]; exact hg) ok.2
  rw [hall, freeSegments_singleton] at hone
  exact hone

omit [DecidableEq Caller] in
theorem Inv.shortfall (k : Nat) :
    Inv c ⟨{ s.pool with toPagedAllocator := s.pool.sortFor c k }, s.held⟩ := fun p =>
  (congrArg (· + _) (total_sorted s.pool k p)).trans (h p)

theorem Inv.alloc {needSize : Nat} : Inv c (s.step c (.alloc r needSize)) := by
  have hn := c.pageSize_pos
  simp only [State.step, call, PagedPool.alloc, PagedAllocator.alloc, Event.given, letGo_nil]
  split_ifs with hlt
  · exact h.shortfall _
  refine h.grant _ _ fun p => ?_
  have htake := (h.sorted_nodup (needSize / c.pageSize)).sublist
    (take_sublist (needSize / c.pageSize) _)
  have hpage : ∀ q, (∃ x ∈ ((s.pool.sortFor c (needSize / c.pageSize)).freePages.take
        (needSize / c.pageSize)).flatMap fun p =>
          (List.range c.pageSize).map fun o : Nat => p * c.pageSize + (o : Int),
      x / (c.pageSize : Int) = q) ↔ q ∈ (s.pool.sortFor c (needSize / c.pageSize)).freePages.take
        (needSize / c.pageSize) := by
    intro q
    simp only [mem_flatMap, mem_map, mem_range]
    constructor
    · rintro ⟨x, ⟨p, hp, o, ho, rfl⟩, rfl⟩
      rwa [(slot_div_mod p ho).1]
    · intro hq
      exact ⟨_, ⟨q, hq, 0, hn, rfl⟩, (slot_div_mod q hn).1⟩
  exact count_hold htake (fun q hq => h.sorted_new _ (mem_of_mem_take hq))
    (fun q hq => .inl ((hpage q).mp hq)) (fun q hq => (hpage q).mpr hq) p

theorem Inv.allocExtend {batch : List (Caller × Extension)}
    (ok : Allowed c s (.allocExtend batch)) : Inv c (s.step c (.allocExtend batch)) := by
  simp only [State.step, call, PagedPool.allocExtend, PagedAllocator.allocExtend, Event.given,
    letGo_nil]
  split_ifs with hlt
  · exact h.shortfall _
  · exact h.grant _ _ fun p => count_foldl_hold ok.2 (Nat.le_of_not_lt hlt)
      (h.sorted_nodup _) (fun q hq => h.sorted_new _ hq) p

theorem Inv.allocDecode {batch : List (Caller × DecodeReq)} (hps : 1 < c.pageSize)
    (ok : Allowed c s (.allocDecode batch)) : Inv c (s.step c (.allocDecode batch)) := by
  have hd : ∀ d ∈ batch.map snd, 0 < d.seqLen := by
    intro d hm
    obtain ⟨x, hx, rfl⟩ := mem_map.mp hm
    exact (ok.2 x hx).1
  -- a decode batch is a batch of extensions by one
  have hext : ∀ y ∈ batch.map fun x => (x.1, x.2.toExtension), Consistent c s.held y.1 y.2 := by
    intro y hy
    obtain ⟨x, hx, rfl⟩ := mem_map.mp hy
    exact (ok.2 x hx).2
  have hfst : (batch.map fun x => (x.1, x.2.toExtension)).map fst = batch.map fst := by
    simp
  have hsnd : (batch.map fun x => (x.1, x.2.toExtension)).map snd =
      (batch.map snd).map DecodeReq.toExtension := by
    simp
  have hsum := sum_numNewPages_decode hps hd
  simp only [State.step, call, PagedPool.allocDecode, PagedAllocator.allocDecode, Event.given,
    letGo_nil]
  split_ifs with hlt
  · exact h.shortfall _
  rw [← hsum] at hlt ⊢
  refine h.grant _ _ fun p => ?_
  have hcount := count_foldl_hold hext (by rw [hsnd]; exact Nat.le_of_not_lt hlt)
    (h.sorted_nodup _) (fun q hq => h.sorted_new _ hq) p
  rw [hfst, hsnd, ← allocDecodeKernel_eq hps hd] at hcount
  exact hcount

end

/-- Decode steps are asked only for pages of more than one slot. -/
def Event.DecodesPaged (c : PoolConfig) : Event Caller → Prop
  | .allocDecode _ => 1 < c.pageSize
  | _ => True

theorem Inv.step (h : Inv c s) (ok : Allowed c s e) (he : e.DecodesPaged c) : Inv c (s.step c e) := by
  have hgroup : ∀ {a'}, Returned c s.pool a' [] → Inv c ⟨a', letGo c s.held []⟩ := fun hr =>
    h.give (fun _ hg => absurd hg not_mem_nil) hr nodup_nil fun p => by simp
  cases e with
  | alloc r needSize => exact h.alloc
  | allocExtend batch => exact h.allocExtend ok
  | allocDecode batch => exact h.allocDecode he ok
  | free r idx => exact h.free ok
  | freeSegment r idx pos => exact h.freeSegment ok
  | freeSegments r segs => exact h.freeSegments ok.1 ok.2
  | freeGroupBegin => exact hgroup (returned_freeGroupBegin ok.2)
  | freeGroupEnd => exact hgroup (returned_freeGroupEnd ok.2)

theorem Inv.run (h : Run c (fun _ e => e.DecodesPaged c) s) : Inv c s := by
  induction h with
  | init =>
    intro p
    simp [total, State.init, clear, PagedAllocator.count, pending, allPages,
      PagedAllocator.clear]
  | step _ ok he ih => exact ih.step ok he

theorem answer_none {α : Type} {sorted : PagedAllocator} {o : Option (α × PagedAllocator)}
    (h : (a.answer sorted o).1 = none) :
    (a.answer sorted o).2 = { a with toPagedAllocator := sorted } := by
  cases o with
  | none => rfl
  | some x => exact absurd h (Option.some_ne_none _)

omit [DecidableEq Caller] in
/-- A `None` comes from a shortfall. -/
theorem call_none (h : (call c a e).1 = none) :
    (∃ k, (call c a e).2 = { a with toPagedAllocator := a.sortFor c k }) ∧ e.given = [] := by
  cases e with
  | alloc r needSize => exact ⟨⟨_, answer_none (Option.map_eq_none_iff.mp h)⟩, rfl⟩
  | allocExtend batch => exact ⟨⟨_, answer_none (Option.map_eq_none_iff.mp h)⟩, rfl⟩
  | allocDecode batch => exact ⟨⟨_, answer_none (Option.map_eq_none_iff.mp h)⟩, rfl⟩
  | _ => exact absurd h (Option.some_ne_none _)

/-- **The pages are conserved.**  In every run the free list, the release list, the pages that wait in
the open free group and the pages of the callers are the pages `1, …, num_pages`, each once.  No caller
holds page `0` and no two hold the same page.  What a call returns to a caller are slots of pages it then
holds, and a call that returns `None` leaves the free pages, the group and the callers as they are. -/
theorem run_partition (h : Run c (fun _ e => e.DecodesPaged c) s) :
    (s.pool.freePages ++ s.pool.releasePages ++ s.pool.pending c ++ s.held.map snd).Perm
        ((List.range c.numPages).map fun i : Nat => (i : Int) + 1) ∧
      (∀ x ∈ s.held, x.2 ≠ 0) ∧
      (∀ r r' p, (r, p) ∈ s.held → (r', p) ∈ s.held → r = r') ∧
      ∀ e : Event Caller, Allowed c s e → e.DecodesPaged c →
        (∀ outs, (call c s.pool e).1 = some outs → ∀ o ∈ outs, ∀ x ∈ o.2,
          (o.1, x / (c.pageSize : Int)) ∈ (s.step c e).held ∧ x / (c.pageSize : Int) ≠ 0) ∧
        ((call c s.pool e).1 = none →
          ((call c s.pool e).2.freePages ++ (call c s.pool e).2.releasePages).Perm
              (s.pool.freePages ++ s.pool.releasePages) ∧
            (call c s.pool e).2.pending c = s.pool.pending c ∧ (s.step c e).held = s.held) := by
  have hi := Inv.run h
  have hpages : ∀ {t : State Caller}, Inv c t → ∀ x ∈ t.held, x.2 ≠ 0 := by
    intro t ht x hx h0
    have := (mem_allPages.mp (ht.held_allPages hx)).1
    omega
  refine ⟨perm_iff_count.mpr fun p => ?_, hpages hi, fun r r' p hr hr' => ?_, ?_⟩
  · have := hi p
    simp only [total, PagedAllocator.count, count_append] at this ⊢
    exact this
  · exact congrArg fst (inj_on_of_nodup_map hi.nodup_held hr hr' rfl)
  · intro e ok he
    refine ⟨fun outs hout o ho x hx => ?_, fun hnone => ?_⟩
    · have hmem : (o.1, x / (c.pageSize : Int)) ∈ (s.step c e).held := by
        simp only [State.step, hout, Option.getD_some]
        exact mem_foldl_hold ho hx
      exact ⟨hmem, hpages (hi.step ok he) _ hmem⟩
    · obtain ⟨⟨k, hk⟩, hgiven⟩ := call_none hnone
      refine ⟨perm_iff_count.mpr fun p => ?_, ?_, ?_⟩
      · rw [hk]
        exact PagedAllocator.count_sortFor (c := c) s.pool.toPagedAllocator k p
      · rw [hk]
        rfl
      · simp only [State.step, hnone, Option.getD_none, foldl_nil, hgiven, letGo_nil]

/-- A request takes a page and a half, and gives both pages back in an open group. -/
theorem run_partition_openGroup : ∃ s : State Nat,
    s.pool.freePages = [3, 4] ∧ s.pool.pending ⟨2, by decide, 4, true⟩ = [1, 2] ∧ s.held = [] ∧
      (s.pool.freePages ++ s.pool.releasePages ++ s.pool.pending ⟨2, by decide, 4, true⟩ ++
        s.held.map snd).Perm ((List.range 4).map fun i : Nat => (i : Int) + 1) := by
  let c : PoolConfig := ⟨2, by decide, 4, true⟩
  let s₁ := (State.init c).step c (.allocExtend [(7, ⟨0, 3, -1⟩)])
  let s₂ := s₁.step c .freeGroupBegin
  let s₃ := s₂.step c (.freeSegment 7 [2, 3, 4] 0)
  have h₁ : Run c (fun _ e => e.DecodesPaged c) s₁ := by
    refine .step .init ⟨fun _ hg => absurd hg not_mem_nil, fun x hx => ?_⟩ trivial
    rw [mem_singleton.mp hx]
    exact ⟨by decide, fun h => absurd (by decide) h⟩
  have h₂ : Run c (fun _ e => e.DecodesPaged c) s₂ :=
    h₁.step ⟨fun _ hg => absurd hg not_mem_nil, by decide⟩ trivial
  have h₃ : Run c (fun _ e => e.DecodesPaged c) s₃ :=
    h₂.step ⟨by unfold Owned; decide, by decide, by decide⟩ trivial
  exact ⟨s₃, by decide, by decide, by decide, (run_partition h₃).1⟩

/-- With pages of one slot `alloc_decode` hands out a page and leaves it in the free list. -/
theorem allocDecode_pageSize_one : ∃ s : State Nat,
    Run ⟨1, by decide, 1, false⟩ (fun _ _ => True) s ∧ s.held = [(7, 1)] ∧ s.pool.freePages = [1] ∧
      ¬ (s.pool.freePages ++ s.pool.releasePages ++ s.pool.pending ⟨1, by decide, 1, false⟩ ++
        s.held.map snd).Perm ((List.range 1).map fun i : Nat => (i : Int) + 1) := by
  let c : PoolConfig := ⟨1, by decide, 1, false⟩
  refine ⟨(State.init c).step c (.allocDecode [(7, ⟨1, -1⟩)]), ?_, by decide, by decide, by decide⟩
  refine .step .init ⟨fun _ hg => absurd hg not_mem_nil, fun x hx => ?_⟩ trivial
  rw [mem_singleton.mp hx]
  exact ⟨by decide, by decide, fun h => absurd (by decide) h⟩

end SglangRuntime.PagedPool
