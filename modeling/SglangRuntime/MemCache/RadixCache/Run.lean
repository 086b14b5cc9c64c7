import SglangRuntime.MemCache.RadixCache.Walk

/-!
# Memory cache — runs of `RadixCache`

A run starts from `reset` and takes `match_prefix`, `insert`, `inc_lock_ref`, `dec_lock_ref` and
`evict` in any order.  A run keeps the bag `held` of locks acquired and not yet released; a release
is of a node in the bag.

The invariant of runs (`Inv`) adds to the books that a node's `lock_ref` counts the held locks
whose path to the root passes through it.  Every operation keeps it (`Inv.step`), so every state of
a run is well formed and no operation raises there.
-/

namespace SglangRuntime.RadixCache

open Foundation Foundation.Trie List RadixCache Option

variable {c : CacheInitParams} {s s' : RadixCache} {i j : NodeId} {held held' : Multiset NodeId}
  {rank : NodeId → Nat} {heap : List NodeId} {x : NodeId} {v : List Slot}

/-! ### Eviction as a sequence of leaf removals -/

/-- `s'` is `s` with evictable leaves removed, one after another. -/
inductive Pruned (c : CacheInitParams) : RadixCache → RadixCache → Prop where
  | refl (s : RadixCache) : Pruned c s s
  | more {s s₁ s' : RadixCache} {x : NodeId} (hx : s.EvictableLeaf x)
      (h : s.deleteLeaf c x = some s₁) (t : Pruned c s₁ s') : Pruned c s s'

theorem heapMin_mem (h : s.heapMin c rank heap = some x) : x ∈ heap := by
  induction heap generalizing x with
  | nil => cases h
  | cons y heap ih =>
    simp only [heapMin] at h
    rcases hm : s.heapMin c rank heap with - | z
    · rw [hm] at h
      cases h
      exact mem_cons_self
    · rw [hm] at h
      simp only at h
      split_ifs at h
      · cases h; exact mem_cons_of_mem _ (ih hm)
      · cases h; exact mem_cons_self

/-- The live nodes. -/
def liveNodes (s : RadixCache) : Finset NodeId :=
  (Finset.range s.tree.counter).filter fun i => s.tree.Live i

theorem mem_liveNodes (h : s.tree.WF c.ops) : i ∈ s.liveNodes ↔ s.tree.Live i := by
  simp only [liveNodes, Finset.mem_filter, Finset.mem_range, and_iff_right_iff_imp]
  exact h.lt_counter

/-- The heap of an eviction: evictable leaves, each once. -/
structure HeapOk (s : RadixCache) (heap : List NodeId) : Prop where
  leaf : ∀ x ∈ heap, s.EvictableLeaf x
  nodup : heap.Nodup

/-- The heap holds every evictable leaf. -/
def HeapFull (s : RadixCache) (heap : List NodeId) : Prop := ∀ x, s.EvictableLeaf x → x ∈ heap

/-- **One iteration of the eviction loop** removes an evictable leaf, which the evictable size loses,
and pushes its parent when that has become one. -/
theorem evict_step (h : Books c s ∅)
    (hheap : HeapOk s heap) (hmin : s.heapMin c rank heap = some x) :
    ∃ v p s₁ heap₁, s.valueOf x = some v ∧ s.tree.parentOf x = some p ∧
      s.deleteLeaf c x = some s₁ ∧ s.EvictableLeaf x ∧ Books c s₁ ∅ ∧
      (heap.erase x ++
        if ((s₁.tree.childIds p).isEmpty && s₁.lockRefOf p == 0) then [p] else []) = heap₁ ∧
      HeapOk s₁ heap₁ ∧ (HeapFull s heap → HeapFull s₁ heap₁) ∧
      s₁.liveNodes.card < s.liveNodes.card ∧ s₁.evictableSize + v.length = s.evictableSize := by
  have hx := hheap.leaf x (heapMin_mem hmin)
  obtain ⟨s₁, d, hdel, hb, ok, ht⟩ := h.deleteLeaf hx
  obtain ⟨p, b⟩ := h.wf.below ok.live ok.ne_root
  obtain ⟨k, hk⟩ := ok.live.key
  obtain ⟨a, ha⟩ := ok.live.data
  obtain ⟨v, hv, hlen⟩ := h.value ok.ne_root hk ha
  have hlock : a.lockRef = 0 := by rw [← lockRefOf_eq ha]; exact hx.2.2.2
  have hcond : ((s₁.tree.childIds p).isEmpty && s₁.lockRefOf p == 0) ↔
      s₁.EvictableLeaf p := by
    rw [Bool.and_eq_true, beq_iff_eq, List.isEmpty_iff, hb.wf.childIds_eq_nil]
    refine ⟨fun ⟨hno, h0⟩ => ⟨?_, ?_, hno, h0⟩, fun hp => ⟨hp.2.2.1, hp.2.2.2⟩⟩
    · -- the root is never pushed: its lock count is 1
      intro e
      rw [e, lockRefOf_eq hb.root_data] at h0
      exact absurd h0 one_ne_zero
    · rw [ht, b.live_removeLeaf]; exact ⟨b.ne.symm, b.live⟩
  obtain ⟨push, hpush, hpushed, hpnd⟩ : ∃ push, (if ((s₁.tree.childIds p).isEmpty &&
      s₁.lockRefOf p == 0) then [p] else []) = push ∧
      (∀ y, y ∈ push ↔ y = p ∧ s₁.EvictableLeaf p) ∧ push.Nodup := by
    by_cases he : s₁.EvictableLeaf p
    · exact ⟨[p], if_pos (hcond.mpr he), by simp [he], nodup_singleton p⟩
    · exact ⟨[], if_neg (mt hcond.mp he), by simp [he], nodup_nil⟩
  -- the parent had a child, so it was in no heap
  have hpar : p ∉ heap := fun hp => (hheap.leaf p hp).2.2.1 x b.parent
  have hmem : ∀ y, (y ∈ heap.erase x ++ push → s₁.EvictableLeaf y) ∧
      (HeapFull s heap → s₁.EvictableLeaf y → y ∈ heap.erase x ++ push) := by
    intro y
    rw [mem_append, hheap.nodup.mem_erase_iff, hpushed]
    by_cases hyp : y = p
    · subst hyp
      simp [hpar]
    · rw [or_iff_left fun hy => hyp hy.1, evictableLeaf_removeLeaf h.wf b.parent ht hyp]
      exact ⟨fun hy => ⟨hy.1, hheap.leaf y hy.2⟩, fun hfull hy => ⟨hy.1, hfull y hy.2⟩⟩
  refine ⟨v, p, s₁, heap.erase x ++ push, (valueOf_eq ha).trans hv, b.parent, hdel, hx, hb,
    by rw [hpush], ⟨fun y => (hmem y).1, ?_⟩, fun hfull y => (hmem y).2 hfull, ?_, ?_⟩
  · refine nodup_append.mpr ⟨hheap.nodup.erase x, hpnd, ?_⟩
    rintro y hy z hz rfl
    exact hpar (((hpushed y).mp hz).1 ▸ mem_of_mem_erase hy)
  · refine Finset.card_lt_card (Finset.ssubset_iff_subset_ne.mpr ⟨fun y hy => ?_, fun e => ?_⟩)
    · rw [mem_liveNodes hb.wf, ht, b.live_removeLeaf] at hy
      exact (mem_liveNodes h.wf).mpr hy.2
    · have hxm := (mem_liveNodes h.wf).mpr ok.live
      rw [← e, mem_liveNodes hb.wf, ht, b.live_removeLeaf] at hxm
      exact hxm.1 rfl
  · rw [hb.evictable, ht, h.wf.total_removeLeaf ok hk ha, h.evictable, evictableWeight, if_pos hlock,
      hlen]
    ring

/-- The slots of some nodes. -/
def slotsOfNodes (s : RadixCache) (nodes : List NodeId) : List Slot :=
  nodes.flatMap fun x => (s.valueOf x).getD []

theorem slotsOfNodes_cons (hv : s.valueOf x = some v)
    (nodes : List NodeId) : s.slotsOfNodes (x :: nodes) = v ++ s.slotsOfNodes nodes := by
  simp [slotsOfNodes, hv]

/-- `s'` is `s` without the nodes `removed`, which are unlocked and whole subtrees. -/
structure Removed (s s' : RadixCache) (removed : List NodeId) : Prop where
  nodup : removed.Nodup
  live : ∀ j, s'.tree.Live j ↔ s.tree.Live j ∧ j ∉ removed
  unlocked : ∀ x ∈ removed, s.tree.Live x ∧ s.lockRefOf x = 0
  subtree : ∀ x ∈ removed, ∀ y, s.tree.Live y → x ∈ s.tree.path y → y ∈ removed
  evictable : s'.evictableSize + (s.slotsOfNodes removed).length = s.evictableSize

theorem Removed.nil (s : RadixCache) : Removed s s [] :=
  ⟨nodup_nil, by simp, by simp, by simp, by simp [slotsOfNodes]⟩

/-- A removal before the others. -/
theorem Removed.cons {s₁ : RadixCache} {removed : List NodeId}
    (h : Books c s ∅) (hx : s.EvictableLeaf x) (hdel : s.deleteLeaf c x = some s₁)
    (hv : s.valueOf x = some v) (hsize : s₁.evictableSize + v.length = s.evictableSize)
    (hr : Removed s₁ s' removed) :
    Removed s s' (x :: removed) ∧ ∀ l ⊆ removed, s.slotsOfNodes l = s₁.slotsOfNodes l := by
  obtain ⟨s₂, d, hdel', -, ok, ht⟩ := h.deleteLeaf hx
  obtain rfl := some.inj (hdel.symm.trans hdel')
  obtain ⟨p, b⟩ := h.wf.below ok.live ok.ne_root
  have hlive : ∀ j, s₁.tree.Live j ↔ j ≠ x ∧ s.tree.Live j := fun j => by
    rw [ht, b.live_removeLeaf]
  have hdata : ∀ j, j ≠ x → s₁.tree.dataOf j = s.tree.dataOf j := fun j hj => by
    rw [ht, b.dataOf_removeLeaf, if_neg hj]
  have hne : ∀ y ∈ removed, y ≠ x := fun y hy => ((hlive y).mp (hr.unlocked y hy).1).1
  have hslots : ∀ l ⊆ removed, s.slotsOfNodes l = s₁.slotsOfNodes l := fun l hl =>
    flatMap_congr fun y hy => by rw [valueOf, valueOf, hdata y (hne y (hl hy))]
  refine ⟨⟨nodup_cons.mpr ⟨fun hx => hne x hx rfl, hr.nodup⟩, fun j => ?_, ?_, ?_, ?_⟩, hslots⟩
  · rw [hr.live, hlive, mem_cons, not_or]
    tauto
  · refine forall_mem_cons.mpr ⟨⟨ok.live, hx.2.2.2⟩, fun y hy => ?_⟩
    obtain ⟨hl, h0⟩ := hr.unlocked y hy
    rw [lockRefOf, hdata y (hne y hy)] at h0
    exact ⟨((hlive y).mp hl).2, h0⟩
  · intro y hy z hz hyz
    by_cases hzx : z = x
    · exact hzx ▸ mem_cons_self
    rcases mem_cons.mp hy with rfl | hy
    · exact absurd hyz ((h.wf.isPath hz).not_mem_of_childless ok.childless hzx)
    · refine mem_cons_of_mem _ (hr.subtree y hy z ((hlive z).mpr ⟨hzx, hz⟩) ?_)
      rwa [ht, h.wf.path_removeLeaf ok hz hzx]
  · have := hr.evictable
    rw [slotsOfNodes_cons hv, hslots removed (List.Subset.refl _), length_append]
    push_cast
    linarith

/-- **The eviction loop** terminates without error and removes evictable leaves only.  It stops when
it has freed what was asked, never having gone on from there, or when no evictable leaf is left. -/
theorem evictLoop_spec {numTokens : Nat} {fuel : Nat}
    (numEvicted : Nat) (freed : List Slot) (h : Books c s ∅) (hheap : HeapOk s heap)
    (hfull : HeapFull s heap) (hfuel : s.liveNodes.card < fuel) :
    ∃ s' removed, evictLoop c numTokens rank fuel s heap numEvicted freed =
        some (s', numEvicted + (s.slotsOfNodes removed).length, freed ++ s.slotsOfNodes removed) ∧
      Pruned c s s' ∧ Removed s s' removed ∧
      (numTokens ≤ numEvicted + (s.slotsOfNodes removed).length ∨ ∀ x, ¬ s'.EvictableLeaf x) ∧
      ∀ l x, removed = l ++ [x] → numEvicted + (s.slotsOfNodes l).length < numTokens := by
  induction fuel generalizing s heap numEvicted freed with
  | zero => omega
  | succ fuel ih =>
    simp only [evictLoop]
    split_ifs with hlt
    swap
    · exact ⟨s, [], by simp [slotsOfNodes], .refl s, .nil s, .inl (by simpa [slotsOfNodes] using hlt),
        by simp⟩
    rcases hmin : s.heapMin c rank heap with - | x
    · -- the heap has run out
      refine ⟨s, [], by simp [slotsOfNodes], .refl s, .nil s, .inr fun x hx => ?_, by simp⟩
      cases heap with
      | nil => exact absurd (hfull x hx) not_mem_nil
      | cons y heap =>
        simp only [heapMin] at hmin
        split at hmin
        · cases hmin
        · split_ifs at hmin
    obtain ⟨v, p, s₁, heap₁, hv, hp, hdel, hx, hb, hpush, hheap₁, hfull₁, hcard, hsize⟩ :=
      evict_step h hheap hmin
    simp only [hv, hp, hdel, bind_eq_bind, bind_some, hpush]
    obtain ⟨s₂, removed, hres, hpr, hrem, hend, hlast⟩ :=
      ih (numEvicted + v.length) (freed ++ v) hb hheap₁ (hfull₁ hfull) (by omega)
    obtain ⟨hrem', hslots⟩ := hrem.cons h hx hdel hv hsize
    refine ⟨s₂, x :: removed, ?_, .more hx hdel hpr, hrem', ?_, fun l y hl => ?_⟩
    · rw [hres, slotsOfNodes_cons hv, hslots removed (List.Subset.refl _), length_append,
        Nat.add_assoc, append_assoc]
    · rwa [slotsOfNodes_cons hv, hslots removed (List.Subset.refl _), length_append,
        ← Nat.add_assoc]
    · rcases l with - | ⟨z, l⟩
      · simpa [slotsOfNodes] using hlt
      · obtain ⟨rfl, rfl⟩ := List.cons.inj hl
        have := hlast l y rfl
        rw [slotsOfNodes_cons hv, hslots l (subset_append_left _ _), length_append]
        omega

/-- The heap starts with the leaves that the cache tracks. -/
theorem heapOk_leaves (h : Books c s ∅) :
    HeapOk s ((List.range s.tree.counter).filter (· ∈ s.evictableLeaves)) := by
  refine ⟨fun x hx => ?_, nodup_range.filter _⟩
  rw [mem_filter, decide_eq_true_eq] at hx
  exact (h.leaves (Set.notMem_empty _)).mp hx.2

theorem card_liveNodes_lt (s : RadixCache) : s.liveNodes.card < s.tree.counter + 1 := by
  have := Finset.card_filter_le (Finset.range s.tree.counter) fun i => s.tree.Live i
  rw [Finset.card_range] at this
  exact Nat.lt_succ_of_le this

theorem evict_spec (h : Books c s ∅) (hdis : c.disable = false) (numTokens : Nat)
    (rank : NodeId → Nat) :
    ∃ s' removed, s.evict c numTokens rank =
        some (s', (s.slotsOfNodes removed).length, s.slotsOfNodes removed) ∧
      Pruned c s s' ∧ Removed s s' removed ∧
      (numTokens ≤ (s.slotsOfNodes removed).length ∨ ∀ x, ¬ s'.EvictableLeaf x) ∧
      ∀ l x, removed = l ++ [x] → (s.slotsOfNodes l).length < numTokens := by
  simp only [evict, hdis, Bool.false_eq_true, if_false]
  have hfull : HeapFull s ((List.range s.tree.counter).filter (· ∈ s.evictableLeaves)) :=
    fun x hx => mem_filter.mpr ⟨mem_range.mpr (h.wf.lt_counter hx.2.1),
      decide_eq_true ((h.leaves (Set.notMem_empty x)).mpr hx)⟩
  simpa using evictLoop_spec 0 [] h (heapOk_leaves h) hfull (card_liveNodes_lt s)

/-! ### The invariant of runs -/

structure Inv (c : CacheInitParams) (s : RadixCache) (held : Multiset NodeId) : Prop where
  books : Books c s ∅
  held_live : ∀ h ∈ held, s.tree.Live h
  /-- `lock_ref` counts the held locks below -/
  lock : ∀ i, i ≠ s.tree.root → s.tree.Live i →
    s.lockRefOf i = held.countP fun h => i ∈ s.tree.path h
  disabled : c.disable → ∀ i, s.tree.Live i → i = s.tree.root

namespace Inv

section

variable (h : Inv c s held) {x : NodeId}
include h

theorem not_mem_path_of_lock (hx : s.EvictableLeaf x)
    {y : NodeId} (hy : y ∈ held) : x ∉ s.tree.path y := by
  obtain ⟨hr, hl, -, h0⟩ := hx
  rw [h.lock x hr hl] at h0
  have := Multiset.countP_eq_zero.mp (Int.ofNat_eq_zero.mp h0)
  exact this y hy

theorem reshape (hr : Reshaped c s s') : Inv c s' held := by
  have hb := h.books.reshape hr
  obtain ⟨-, -, -, ht | ⟨i, dTop, dRest, len, k, ok, ht⟩⟩ := hr
  · refine ⟨hb, ?_, ?_, ?_⟩
    · rw [ht]; exact h.held_live
    · simp only [lockRefOf, ht]; exact h.lock
    · rw [ht]; exact h.disabled
  obtain ⟨p, b⟩ := h.books.wf.below ok.live ok.ne_root
  have hwf := h.books.wf
  have hroot : s'.tree.root = s.tree.root := by rw [ht, splitTree, root_split]
  have hlive : ∀ j, s'.tree.Live j ↔ j = s.tree.counter ∨ s.tree.Live j := fun j => by
    rw [ht, splitTree, b.live_split]
  have hpath : ∀ y ∈ held, s'.tree.path y = insertAbove i s.tree.counter (s.tree.path y) :=
    fun y hy => by rw [ht, splitTree, hwf.path_split ok (h.held_live y hy)]
  refine ⟨hb, fun y hy => (hlive y).mpr (.inr (h.held_live y hy)), fun j hj hjl => ?_, ?_⟩
  · rw [lockRef_split hwf ok ht]
    rw [hroot] at hj
    split_ifs with hjm
    · -- the fresh node is on the paths that held `i`
      subst hjm
      rw [h.lock i ok.ne_root ok.live]
      refine congrArg _ (Multiset.countP_congr rfl fun y hy => ?_)
      have hfresh : s.tree.counter ∉ s.tree.path y := fun hm =>
        hwf.fresh ((hwf.isPath (h.held_live y hy)).live_of_mem hm)
      simp [hpath y hy, mem_insertAbove, hfresh]
    · rw [h.lock j hj (((hlive j).mp hjl).resolve_left hjm)]
      refine congrArg _ (Multiset.countP_congr rfl fun y hy => ?_)
      simp [hpath y hy, mem_insertAbove, hjm]
  · intro hd
    exact absurd (h.disabled hd i ok.live) ok.ne_root

theorem insertLeaf (hd : c.disable = false) {w : InsertWalk}
    (hk : LeafOk c.ops s.tree w.node w.childKey w.key) (hv : w.value.length = w.key.len)
    (now priority : Int) (chunked : Bool) : Inv c (s.insertLeaf w now priority chunked) held := by
  have hwf := h.books.wf
  have hpm := hwf.ne_counter hk.live
  have ht := tree_insertLeaf s w now priority chunked
  have hpath : ∀ y ∈ held,
      (s.insertLeaf w now priority chunked).tree.path y = s.tree.path y := fun y hy => by
    rw [ht, hwf.path_addLeaf hk (h.held_live y hy)]
  refine ⟨h.books.insertLeaf hk hv now priority chunked, ?_, ?_, ?_⟩
  · intro y hy
    rw [ht, live_addLeaf hpm]
    exact .inr (h.held_live y hy)
  · intro j hj hjl
    have hcount : (held.countP fun y => j ∈ (s.insertLeaf w now priority chunked).tree.path y) =
        held.countP fun y => j ∈ s.tree.path y :=
      Multiset.countP_congr rfl fun y hy => by rw [hpath y hy]
    rw [hcount, lockRefOf, ht, dataOf_addLeaf hpm]
    rw [ht, root_addLeaf] at hj
    rw [ht, live_addLeaf hpm] at hjl
    split_ifs with hjm
    · -- nothing holds the new leaf
      subst hjm
      have hzero : (held.countP fun y => s.tree.counter ∈ s.tree.path y) = 0 :=
        Multiset.countP_eq_zero.mpr fun y hy hm =>
          hwf.fresh ((hwf.isPath (h.held_live y hy)).live_of_mem hm)
      rw [hzero]
      rfl
    · exact h.lock j hj (hjl.resolve_left hjm)
  · intro hd'
    rw [hd] at hd'
    cases hd'

theorem inserted (hd : c.disable = false) {r : RadixKey} {value : List Slot}
    {m : Nat} (hi : Inserted c s s' r value m) : Inv c s' held := by
  obtain ⟨-, ⟨-, hr⟩ | ⟨s₁, w, now, priority, chunked, -, hr, hk, -, -, hv, -, rfl⟩⟩ := hi
  · exact h.reshape hr
  · exact (h.reshape hr).insertLeaf hd hk hv now priority chunked

theorem deleteLeaf (hx : s.EvictableLeaf x)
    (hdel : s.deleteLeaf c x = some s') : Inv c s' held := by
  obtain ⟨s₁, d, hdel', hb, ok, ht⟩ := h.books.deleteLeaf hx
  rw [hdel, some.injEq] at hdel'
  subst hdel'
  have hwf := h.books.wf
  obtain ⟨p, b⟩ := hwf.below ok.live ok.ne_root
  have hne : ∀ y ∈ held, y ≠ x := by
    rintro y hy rfl
    exact h.not_mem_path_of_lock hx hy (hwf.mem_path_self b.parent)
  have hpath : ∀ y ∈ held, s'.tree.path y = s.tree.path y := fun y hy => by
    rw [ht, hwf.path_removeLeaf ok (h.held_live y hy) (hne y hy)]
  refine ⟨hb, ?_, ?_, ?_⟩
  · intro y hy
    rw [ht, b.live_removeLeaf]
    exact ⟨hne y hy, h.held_live y hy⟩
  · intro j hj hjl
    rw [ht, root_removeLeaf] at hj
    rw [ht, b.live_removeLeaf] at hjl
    have hcount : (held.countP fun y => j ∈ s'.tree.path y) =
        held.countP fun y => j ∈ s.tree.path y :=
      Multiset.countP_congr rfl fun y hy => by rw [hpath y hy]
    rw [hcount, lockRefOf, ht, b.dataOf_removeLeaf, if_neg hjl.1]
    exact h.lock j hj hjl.2
  · intro hd j hj
    rw [ht, b.live_removeLeaf] at hj
    rw [ht, root_removeLeaf]
    exact h.disabled hd j hj.2

theorem pruned (hp : Pruned c s s') : Inv c s' held := by
  induction hp with
  | refl => exact h
  | more hx hdel _ ih => exact ih (h.deleteLeaf hx hdel)

theorem relocked (hb : Books c s' ∅) {l : List NodeId} {n : Int}
    (hr : Relocked s s' l n) (hlive : ∀ y ∈ held', s.tree.Live y)
    (hcount : ∀ j, j ≠ s.tree.root → s.tree.Live j →
      (held.countP (fun y => j ∈ s.tree.path y) : Int) + (if j ∈ l then n else 0) =
        held'.countP fun y => j ∈ s.tree.path y) : Inv c s' held' := by
  have hwf := h.books.wf
  refine ⟨hb, fun y hy => hr.shape.live.mpr (hlive y hy), fun j hj hjl => ?_, ?_⟩
  · rw [hr.shape.root] at hj
    have hjl := hr.shape.live.mp hjl
    have e : (held'.countP fun y => j ∈ s'.tree.path y) =
        held'.countP fun y => j ∈ s.tree.path y :=
      Multiset.countP_congr rfl fun y hy => by rw [hr.shape.path hwf (hlive y hy)]
    rw [hr.lockRef j hjl, h.lock j hj hjl, hcount j hj hjl, e]
  · intro hd j hj
    rw [hr.shape.root]
    exact h.disabled hd j (hr.shape.live.mp hj)

/-- `inc_lock_ref` adds a lock along the path of the node. -/
theorem relocked_incLockRef (hd : c.disable = false) (hi : s.tree.Live i) :
    Books c (s.incLockRef c i).1 ∅ ∧ Relocked s (s.incLockRef c i).1 (s.tree.path i) 1 := by
  have hpath := h.books.wf.isPath hi
  have hnodes : ∀ x ∈ s.tree.path i, x ≠ s.tree.root ∧ s.tree.Live x ∧ True := fun x hx =>
    ⟨by rintro rfl; exact hpath.root_not_mem hx, hpath.live_of_mem hx, trivial⟩
  simp only [incLockRef, hd, if_neg Bool.false_ne_true]
  exact foldl_lockStep 1 (fun _ => True) (fun hb hr hl _ => incLockStep_books hb hr hl) h.books
    hpath.nodup hnodes 0

/-- `dec_lock_ref` takes a lock off the path of a node that is held. -/
theorem relocked_decLockRef (hd : c.disable = false) (hi : i ∈ held) :
    Books c (s.decLockRef c i).1 ∅ ∧ Relocked s (s.decLockRef c i).1 (s.tree.path i) (-1) := by
  have hpath := h.books.wf.isPath (h.held_live i hi)
  have hnodes : ∀ x ∈ s.tree.path i, x ≠ s.tree.root ∧ s.tree.Live x ∧ 0 < s.lockRefOf x := by
    intro x hx
    have hxr : x ≠ s.tree.root := by rintro rfl; exact hpath.root_not_mem hx
    have hxl := hpath.live_of_mem hx
    refine ⟨hxr, hxl, ?_⟩
    rw [h.lock x hxr hxl]
    exact Int.natCast_pos.mpr (Multiset.countP_pos.mpr ⟨i, hi, hx⟩)
  simp only [decLockRef, hd, if_neg Bool.false_ne_true]
  exact foldl_lockStep (-1) (0 < ·) decLockStep_books h.books hpath.nodup hnodes 0

theorem incLockRef (hi : s.tree.Live i) : Inv c (s.incLockRef c i).1 (i ::ₘ held) := by
  have hlive : ∀ y ∈ i ::ₘ held, s.tree.Live y := by
    intro y hy
    rcases Multiset.mem_cons.mp hy with rfl | hy
    · exact hi
    · exact h.held_live y hy
  cases hd : c.disable with
  | true =>
    -- a disabled cache holds the root only
    simp only [RadixCache.incLockRef, hd, if_true]
    exact ⟨h.books, hlive, fun j hj hjl => absurd (h.disabled hd j hjl) hj, h.disabled⟩
  | false =>
    obtain ⟨hb, hr⟩ := h.relocked_incLockRef hd hi
    refine h.relocked hb hr hlive fun j _ _ => ?_
    rw [Multiset.countP_cons]
    push_cast
    rfl

theorem decLockRef (hi : i ∈ held) : Inv c (s.decLockRef c i).1 (held.erase i) := by
  have hlive : ∀ y ∈ held.erase i, s.tree.Live y := fun y hy =>
    h.held_live y (Multiset.mem_of_mem_erase hy)
  cases hd : c.disable with
  | true =>
    simp only [RadixCache.decLockRef, hd, if_true]
    exact ⟨h.books, hlive, fun j hj hjl => absurd (h.disabled hd j hjl) hj, h.disabled⟩
  | false =>
    obtain ⟨hb, hr⟩ := h.relocked_decLockRef hd hi
    refine h.relocked hb hr hlive fun j _ _ => ?_
    nth_rewrite 1 [← Multiset.cons_erase hi]
    rw [Multiset.countP_cons]
    split_ifs <;> omega

end

end Inv

/-! ### Runs -/

/-- An operation of a run, with what it was given and what it answered. -/
inductive Event (c : CacheInitParams) where
  | matchPrefix (key : RadixKey) (deviceIndices : List Slot)
  | insert (params : InsertParams c) (prefixLen : Nat)
  | incLockRef (node : NodeId)
  | decLockRef (node : NodeId)
  | evict (numTokens : Nat)

/-- One operation of a run. -/
inductive Step (c : CacheInitParams) :
    RadixCache → Multiset NodeId → Event c → RadixCache → Multiset NodeId → Prop where
  | matchPrefix {s s' : RadixCache} {held : Multiset NodeId} (key : RadixKey) (now : Int)
      {vals : List Slot} {node : NodeId} (h : s.matchPrefix c key now = some (s', vals, node)) :
      Step c s held (.matchPrefix key vals) s' held
  | insert {s s' : RadixCache} {held : Multiset NodeId} (params : InsertParams c) (now : Int)
      {m : Nat} {node : NodeId} (h : s.insert c params now = some (s', m, node)) :
      Step c s held (.insert params m) s' held
  | incLockRef {s : RadixCache} {held : Multiset NodeId} (node : NodeId) (h : s.tree.Live node) :
      Step c s held (.incLockRef node) (s.incLockRef c node).1 (node ::ₘ held)
  | decLockRef {s : RadixCache} {held : Multiset NodeId} (node : NodeId) (h : node ∈ held) :
      Step c s held (.decLockRef node) (s.decLockRef c node).1 (held.erase node)
  | evict {s s' : RadixCache} {held : Multiset NodeId} (numTokens : Nat) (rank : NodeId → Nat)
      {n : Nat} {freed : List Slot} (h : s.evict c numTokens rank = some (s', n, freed)) :
      Step c s held (.evict numTokens) s' held

/-- The states of the runs that start from `reset`, with the locks held and the operations taken,
the last one first. -/
inductive Run (c : CacheInitParams) :
    RadixCache → Multiset NodeId → List (Event c) → Prop where
  | reset : Run c reset 0 []
  | step {s s' : RadixCache} {held held' : Multiset NodeId} {es : List (Event c)} {e : Event c}
      (r : Run c s held es) (h : Step c s held e s' held') : Run c s' held' (e :: es)

/-- No operation raises from `s`. -/
def NeverRaises (c : CacheInitParams) (s : RadixCache) : Prop :=
  (∀ key now, (s.matchPrefix c key now).isSome) ∧
    (∀ params now, (s.insert c params now).isSome) ∧
    ∀ numTokens rank, (s.evict c numTokens rank).isSome

theorem Inv.neverRaises (h : Inv c s held) : NeverRaises c s := by
  by_cases hd : c.disable
  · refine ⟨fun key now => ?_, fun params now => ?_, fun n rank => ?_⟩
    · simp [matchPrefix, hd]
    · simp [insert, hd]
    · simp [evict, hd]
  rw [Bool.not_eq_true] at hd
  refine ⟨fun key now => ?_, fun params now => ?_, fun n rank => ?_⟩
  · obtain ⟨s', vals, node, e, -⟩ := matchPrefix_spec h.books hd key now
    rw [e]; rfl
  · obtain ⟨s', m, node, e, -⟩ := insert_spec h.books hd params now
    rw [e]; rfl
  · obtain ⟨s', removed, e, -⟩ := evict_spec h.books hd n rank
    rw [e]; rfl

/-- **Every operation keeps the invariant.** -/
theorem Inv.step {e : Event c} (h : Inv c s held) (hs : Step c s held e s' held') : Inv c s' held' := by
  by_cases hd : c.disable
  · cases hs with
    | matchPrefix key now e =>
      simp only [matchPrefix, hd, Bool.true_or, if_true, some.injEq,
        Prod.mk.injEq] at e
      exact e.1 ▸ h
    | insert params now e =>
      simp only [insert, hd, if_true, some.injEq, Prod.mk.injEq] at e
      exact e.1 ▸ h
    | incLockRef node hl => exact h.incLockRef hl
    | decLockRef node hm => exact h.decLockRef hm
    | evict n rank e =>
      simp only [evict, hd, if_true, some.injEq, Prod.mk.injEq] at e
      exact e.1 ▸ h
  rw [Bool.not_eq_true] at hd
  cases hs with
  | matchPrefix key now e =>
    obtain ⟨s₁, vals, node, e₁, hr, -⟩ := matchPrefix_spec h.books hd key now
    rw [e, some.injEq, Prod.mk.injEq] at e₁
    exact h.reshape (e₁.1 ▸ hr)
  | insert params now e =>
    obtain ⟨s₁, m, node, e₁, hi⟩ := insert_spec h.books hd params now
    rw [e, some.injEq, Prod.mk.injEq] at e₁
    exact h.inserted hd (e₁.1 ▸ hi)
  | incLockRef node hl => exact h.incLockRef hl
  | decLockRef node hm => exact h.decLockRef hm
  | evict n rank e =>
    obtain ⟨s₁, removed, e₁, hp, -⟩ := evict_spec h.books hd n rank
    rw [e, some.injEq, Prod.mk.injEq] at e₁
    exact h.pruned (e₁.1 ▸ hp)

theorem inv_reset (c : CacheInitParams) : Inv c reset 0 := by
  have hdata : ∀ i, reset.tree.dataOf i = if i = 0 then some ⟨some [], 1⟩ else none := fun i => by
    by_cases e : i = 0 <;> simp [reset, Trie.empty, dataOf, e]
  have hroot : ∀ i, reset.tree.Live i → i = reset.tree.root := fun i hi => by
    obtain ⟨a, ha⟩ := hi.data
    rw [hdata] at ha
    split_ifs at ha with e
    exact e
  have hleaf : ∀ i, ¬ reset.EvictableLeaf i := fun i hi => hi.1 (hroot i hi.2.1)
  refine ⟨⟨wf_empty _ _ _, hdata _, ?_, ?_, ?_, ?_, ?_⟩, ?_, ?_, ?_⟩
  · intro i k a hi hk _
    exact absurd (hroot i (live_of_keyOf hk)) hi
  · intro i a ha
    rw [hdata] at ha
    split_ifs at ha
    cases ha
    exact Int.one_nonneg
  · rfl
  · rfl
  · intro i _
    simp only [hleaf i, iff_false]
    exact Finset.notMem_empty i
  · intro h hh
    exact absurd hh (Multiset.notMem_zero h)
  · intro i hi hl
    exact absurd (hroot i hl) hi
  · intro _ i hi
    exact hroot i hi

theorem Run.inv {es : List (Event c)} (h : Run c s held es) : Inv c s held := by
  induction h with
  | reset => exact inv_reset c
  | step _ hs ih => exact ih.step hs

/-- A well-formed `RadixCache`. -/
structure WellFormed (c : CacheInitParams) (s : RadixCache) : Prop where
  key_nonempty : ∀ i k, i ≠ s.tree.root → s.tree.keyOf i = some k → 0 < k.len
  key_paged : ∀ i k, i ≠ s.tree.root → s.tree.keyOf i = some k → c.pageSize ∣ k.len
  key_value : ∀ i k, i ≠ s.tree.root → s.tree.keyOf i = some k →
    ∃ v, s.valueOf i = some v ∧ v.length = k.len
  /-- a child is in its parent's dictionary under its own child key, and nothing else is -/
  stored : ∀ p d i, s.tree.child p d = some i ↔
    s.tree.parentOf i = some p ∧ ∃ k, s.tree.keyOf i = some k ∧ k.childKey c.pageSize = some d
  siblings : ∀ i j p k k', i ≠ j → s.tree.parentOf i = some p → s.tree.parentOf j = some p →
    s.tree.keyOf i = some k → s.tree.keyOf j = some k' →
    k.units.take c.pageSize ≠ k'.units.take c.pageSize
  lock_le : ∀ i p, s.tree.parentOf i = some p → p ≠ s.tree.root → s.lockRefOf i ≤ s.lockRefOf p
  evictable : s.evictableSize =
    ∑ i ∈ s.liveNodes with i ≠ s.tree.root ∧ s.lockRefOf i = 0, (s.keyLen i : Int)
  protect : s.protectedSize =
    ∑ i ∈ s.liveNodes with i ≠ s.tree.root ∧ 0 < s.lockRefOf i, (s.keyLen i : Int)
  leaves : ∀ i, i ∈ s.evictableLeaves ↔ i ≠ s.tree.root ∧ s.tree.Live i ∧
    s.tree.childIds i = [] ∧ s.lockRefOf i = 0

theorem countP_le_countP {α : Type} {b : Multiset α} {p q : α → Prop} [DecidablePred p]
    [DecidablePred q] (h : ∀ x ∈ b, p x → q x) : b.countP p ≤ b.countP q := by
  induction b using Quotient.inductionOn with
  | h l => exact countP_mono_left fun x hx => by simpa using h x hx

/-- A node is locked at least as often as its children. -/
theorem Inv.lock_le (h : Inv c s held) {p : NodeId} (hp : s.tree.parentOf i = some p)
    (hpr : p ≠ s.tree.root) : s.lockRefOf i ≤ s.lockRefOf p := by
  have hwf := h.books.wf
  rw [h.lock i (hwf.ne_root_of_parentOf hp) (live_of_parentOf hp), h.lock p hpr (hwf.parent_live hp)]
  -- a lock held below the child is held below the parent
  have hsub : ∀ y ∈ held, i ∈ s.tree.path y → p ∈ s.tree.path y := fun y hy hm =>
    hwf.mem_path_trans (h.held_live y hy) hm (by
      rw [hwf.mem_path_iff hp]
      obtain ⟨q, hq⟩ := hwf.below (hwf.parent_live hp) hpr
      exact .inr (hwf.mem_path_self hq.parent))
  exact Int.ofNat_le.mpr (countP_le_countP hsub)

/-- A weight that counts the keys of some of the nodes. -/
theorem total_eq_sum (s : RadixCache) {w : RadixKey → TreeNodeData → Int} (P : Int → Prop)
    [DecidablePred P] (hw : ∀ k a, w k a = if P a.lockRef then (k.len : Int) else 0) :
    s.tree.total w = ∑ i ∈ s.liveNodes with i ≠ s.tree.root ∧ P (s.lockRefOf i), (s.keyLen i : Int) := by
  rw [total, liveNodes, Finset.filter_filter, Finset.sum_filter]
  refine Finset.sum_congr rfl fun i _ => ?_
  by_cases hl : s.tree.Live i
  · obtain ⟨k, hk⟩ := hl.key
    obtain ⟨a, ha⟩ := hl.data
    by_cases hr : i = s.tree.root
    · simp [weight, hr]
    · rw [weight_eq hr hk ha, lockRefOf_eq ha, keyLen_eq hk, hw]
      simp [hl, hr]
  · rw [weight_of_not_live hl]
    simp [hl]

theorem sum_evictable (s : RadixCache) : s.tree.total evictableWeight =
    ∑ i ∈ s.liveNodes with i ≠ s.tree.root ∧ s.lockRefOf i = 0, (s.keyLen i : Int) :=
  s.total_eq_sum (· = 0) fun _ _ => rfl

/-- **Every run of `RadixCache` keeps the tree well formed, and no operation raises.** -/
theorem radixCache_wellFormed {es : List (Event c)} (h : Run c s held es) :
    WellFormed c s ∧ NeverRaises c s := by
  have hi := h.inv
  have hb := hi.books
  have hwf := hb.wf
  refine ⟨⟨?_, ?_, ?_, ?_, ?_, ?_, ?_, ?_, ?_⟩, hi.neverRaises⟩
  · intro i k hr hk
    simpa using (hwf.paged hr hk).1
  · intro i k hr hk
    simpa using (hwf.paged hr hk).2
  · intro i k hr hk
    obtain ⟨a, ha⟩ := (live_of_keyOf hk).data
    obtain ⟨v, hv, hlen⟩ := hb.value hr hk ha
    exact ⟨v, (valueOf_eq ha).trans hv, hlen⟩
  · intro p d i
    rw [hwf.child_iff, bind_eq_some_iff]
    rfl
  · intro i j p k k' hij hpi hpj hk hk' e
    exact hij (hwf.child_unique hpi hpj hk hk' e)
  · exact fun i p hp hpr => hi.lock_le hp hpr
  · rw [hb.evictable, sum_evictable]
  · exact hb.protect.trans (s.total_eq_sum (0 < ·) fun _ _ => rfl)
  · intro i
    rw [hb.leaves (Set.notMem_empty i), EvictableLeaf, hwf.childIds_eq_nil]

/-! ### The root's own lock count

The walks of `inc_lock_ref` and `dec_lock_ref` stop short of the root, whose `lock_ref` stays at
the 1 of `reset`; a child of the root that is locked twice has more locks than its parent. -/

/-- A cache with pages of one token. -/
def tokenParams : CacheInitParams := ⟨1, Nat.one_pos, false, false, .lru⟩

def oneTokenInsert : InsertParams tokenParams where
  key := ⟨[7], none, none, false, none⟩
  value := some [5]
  priority := none
  chunked := false
  value_long := by
    intro v hv
    cases hv
    decide

/-- One token cached, its node locked twice. -/
def lockedTwice : RadixCache :=
  let s := ((reset.insert tokenParams oneTokenInsert 0).map Prod.fst).getD reset
  ((s.incLockRef tokenParams 1).1.incLockRef tokenParams 1).1

theorem run_lockedTwice : Run tokenParams lockedTwice (1 ::ₘ 1 ::ₘ 0)
    [.incLockRef 1, .incLockRef 1, .insert oneTokenInsert 0] := by
  have e : reset.insert tokenParams oneTokenInsert 0 =
      some (((reset.insert tokenParams oneTokenInsert 0).map Prod.fst).getD reset, 0, 1) := by
    have h : (reset.insert tokenParams oneTokenInsert 0).map Prod.snd = some (0, 1) := by decide
    obtain ⟨r, hr, e⟩ := map_eq_some_iff.mp h
    rw [hr, map_some, getD_some, ← e]
  exact .step (.step (.step .reset (.insert oneTokenInsert 0 e)) (.incLockRef 1 (by decide)))
    (.incLockRef 1 (by decide))

theorem radixCache_wellFormed_lockedTwice : Run tokenParams lockedTwice (1 ::ₘ 1 ::ₘ 0)
        [.incLockRef 1, .incLockRef 1, .insert oneTokenInsert 0] ∧
      WellFormed tokenParams lockedTwice ∧
      NeverRaises tokenParams lockedTwice :=
  ⟨run_lockedTwice, radixCache_wellFormed run_lockedTwice⟩

theorem child_lock_gt_root : Run tokenParams lockedTwice (1 ::ₘ 1 ::ₘ 0)
        [.incLockRef 1, .incLockRef 1, .insert oneTokenInsert 0] ∧
      lockedTwice.tree.parentOf 1 = some lockedTwice.tree.root ∧
      ¬ lockedTwice.lockRefOf 1 ≤ lockedTwice.lockRefOf lockedTwice.tree.root :=
  ⟨run_lockedTwice, by decide, by decide⟩

end SglangRuntime.RadixCache
