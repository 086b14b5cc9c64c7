import SglangRuntime.MemCache.RadixCache.Run

/-!
# Memory cache — what `evictable_size` promises

The evictable size of a cache is the number of slots that `evict` can free: an eviction of `n`
tokens frees `n` slots, or everything evictable (`evict_delivers`).  It is a multiple of the page
size, and a lock that is released again leaves it as it was (`Inv.evictableSize_eq`).
-/

namespace SglangRuntime.RadixCache

open Foundation Foundation.Trie Finset

variable {c : CacheInitParams} {s s' : RadixCache} {i : NodeId} {held : Multiset NodeId}

/-! ### Locks and the evictable size -/

/-- The evictable size depends on the shape of the tree and on the lock counts. -/
theorem Books.evictableSize_congr (h : Books c s ∅) (h' : Books c s' ∅)
    (hshape : SameShape s.tree s'.tree)
    (hlock : ∀ j, s.tree.Live j → s'.lockRefOf j = s.lockRefOf j) :
    s'.evictableSize = s.evictableSize := by
  rw [h.evictable, h'.evictable, total, total, hshape.counter]
  refine sum_congr rfl fun j _ => ?_
  by_cases hr : j = s.tree.root
  · simp [weight, hr, hshape.root]
  by_cases hl : s.tree.Live j
  · obtain ⟨k, hk⟩ := hl.key
    obtain ⟨a, ha⟩ := hl.data
    obtain ⟨a', ha'⟩ := (hshape.live.mpr hl).data
    have e := hlock j hl
    rw [lockRefOf_eq ha, lockRefOf_eq ha'] at e
    rw [weight_eq (by rwa [hshape.root]) ((hshape.keyOf j).trans hk) ha', weight_eq hr hk ha,
      evictableWeight, evictableWeight, e]
  · rw [weight_of_not_live hl, weight_of_not_live (mt hshape.live.mp hl)]

namespace Inv

section

variable (h : Inv c s held)
include h

/-- The locks held say what the evictable size is. -/
theorem evictableSize_eq (h' : Inv c s' held)
    (hshape : SameShape s.tree s'.tree) : s'.evictableSize = s.evictableSize := by
  refine h.books.evictableSize_congr h'.books hshape fun j hj => ?_
  by_cases hr : j = s.tree.root
  · have hr' : j = s'.tree.root := hr.trans hshape.root.symm
    rw [lockRefOf_eq (hr' ▸ h'.books.root_data), lockRefOf_eq (hr ▸ h.books.root_data)]
  · rw [h.lock j hr hj, h'.lock j (by rwa [hshape.root]) (hshape.live.mpr hj)]
    refine congrArg _ (Multiset.countP_congr rfl fun y hy => ?_)
    rw [hshape.path h.books.wf (h.held_live y hy)]

theorem sameShape_incLockRef (hi : s.tree.Live i) : SameShape s.tree (s.incLockRef c i).1.tree := by
  cases hd : c.disable with
  | true => simp only [RadixCache.incLockRef, hd, if_true]; exact .refl _
  | false => exact (h.relocked_incLockRef hd hi).2.shape

theorem sameShape_decLockRef (hi : i ∈ held) : SameShape s.tree (s.decLockRef c i).1.tree := by
  cases hd : c.disable with
  | true => simp only [RadixCache.decLockRef, hd, if_true]; exact .refl _
  | false => exact (h.relocked_decLockRef hd hi).2.shape

theorem page_dvd_evictableSize : (c.pageSize : Int) ∣ s.evictableSize := by
  rw [h.books.evictable, total]
  refine dvd_sum fun j _ => ?_
  by_cases hr : j = s.tree.root
  · simp [weight, hr]
  by_cases hl : s.tree.Live j
  · obtain ⟨k, hk⟩ := hl.key
    obtain ⟨a, ha⟩ := hl.data
    rw [weight_eq hr hk ha, evictableWeight]
    split_ifs
    · exact Int.natCast_dvd_natCast.mpr (by simpa using (h.books.wf.paged hr hk).2)
    · exact dvd_zero _
  · rw [weight_of_not_live hl]
    exact dvd_zero _

theorem evictableSize_nonneg : 0 ≤ s.evictableSize := by
  rw [h.books.evictable, sum_evictable]
  exact sum_nonneg fun j _ => Int.natCast_nonneg _

/-- An unlocked node has an evictable leaf below it. -/
theorem evictableSize_eq_zero (hno : ∀ x, ¬ s.EvictableLeaf x) : s.evictableSize = 0 := by
  have hwf := h.books.wf
  rw [h.books.evictable, sum_evictable]
  by_contra hne
  obtain ⟨x, hx, -⟩ := exists_ne_zero_of_sum_ne_zero hne
  -- the deepest unlocked node has no child
  obtain ⟨y, hy, hmax⟩ := exists_max_image _ (fun j => (s.tree.path j).length) ⟨x, hx⟩
  rw [mem_filter, mem_liveNodes hwf] at hy
  obtain ⟨hyl, hyr, hy0⟩ := hy
  refine hno y ⟨hyr, hyl, fun j hj => ?_, hy0⟩
  have hj0 : s.lockRefOf j = 0 :=
    le_antisymm ((h.lock_le hj hyr).trans_eq hy0) (h.books.lockRefOf_nonneg j)
  have hle := hmax j (mem_filter.mpr
    ⟨(mem_liveNodes hwf).mpr (live_of_parentOf hj), hwf.ne_root_of_parentOf hj, hj0⟩)
  rw [hwf.path_cons hj, List.length_cons] at hle
  omega

end

end Inv

/-! ### What an eviction frees -/

theorem Inv.evict_removed (h : Inv c s held) (numTokens : Nat) (rank : NodeId → Nat) :
    ∃ s' removed, s.evict c numTokens rank =
        some (s', (s.slotsOfNodes removed).length, s.slotsOfNodes removed) ∧
      Removed s s' removed ∧
      (numTokens ≤ (s.slotsOfNodes removed).length ∨
        s.evictableSize ≤ (s.slotsOfNodes removed).length) ∧
      ∀ l x, removed = l ++ [x] → (s.slotsOfNodes l).length < numTokens := by
  cases hd : c.disable with
  | true =>
    refine ⟨s, [], by simp [RadixCache.evict, hd, slotsOfNodes], .nil s, .inr ?_, by simp⟩
    refine (h.evictableSize_eq_zero fun x hx => ?_).le
    exact hx.1 (h.disabled hd x hx.2.1)
  | false =>
    obtain ⟨s', removed, e, hpr, hrem, hend, hlast⟩ := evict_spec h.books hd numTokens rank
    refine ⟨s', removed, e, hrem, hend.imp_right fun hno => ?_, hlast⟩
    have hzero := (h.pruned hpr).evictableSize_eq_zero hno
    have := hrem.evictable
    omega

/-- **An eviction frees the slots it was asked for, or everything evictable.** -/
theorem Inv.evict_frees (h : Inv c s held) (numTokens : Nat) (rank : NodeId → Nat) :
    ∃ s' n freed, s.evict c numTokens rank = some (s', n, freed) ∧
      (numTokens ≤ n ∨ s.evictableSize ≤ n) := by
  obtain ⟨s', removed, e, -, hend, -⟩ := h.evict_removed numTokens rank
  exact ⟨s', _, _, e, hend⟩

end SglangRuntime.RadixCache
