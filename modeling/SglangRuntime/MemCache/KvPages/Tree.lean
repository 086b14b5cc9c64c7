import SglangRuntime.MemCache.KvPages.Model

/-!
# Memory cache — the pages of the tree

Every node's slots fill whole pages (`NodesPaged`), and `treeCount` says how often a page is in the
tree.  Splits and locks leave the count alone, a new leaf adds the pages of its slots, and an eviction
hands the pages of every leaf it removes to the allocator.  A node that is locked stays, and the path
to it spells the same (`Keeps`).
-/

namespace SglangRuntime.KvPages

open Foundation Foundation.Trie Option
open RadixCache (Books Reshaped Relocked Inserted slotsOf splitTree EvictableLeaf)

variable {c : CacheInitParams} {s s' : RadixCache} {i : NodeId} {held : Multiset NodeId} {p : Int}
  {l : List NodeId} {n : Int}

section

variable (c : CacheInitParams)

/-- How often page `p` is in a node. -/
def pageWeight (p : Int) (_ : RadixKey) (a : TreeNodeData) : Int :=
  ((pagesOf c.pageSize (slotsOf a)).count p : Int)

/-- How often page `p` is in the tree. -/
def treeCount (s : RadixCache) (p : Int) : Int :=
  s.tree.total (pageWeight c p)

def NodesPaged (s : RadixCache) : Prop :=
  ∀ i a, i ≠ s.tree.root → s.tree.dataOf i = some a → ∃ pages, Covers c.pageSize (slotsOf a) pages

end

/-- Node `i` stays, at the same place. -/
structure Keeps (c : CacheInitParams) (s s' : RadixCache) (i : NodeId) : Prop where
  live : s'.tree.Live i
  spell : s'.tree.spellTo c.ops i = s.tree.spellTo c.ops i

theorem Keeps.trans {s'' : RadixCache} (h : Keeps c s s' i) (h' : Keeps c s' s'' i) :
    Keeps c s s'' i :=
  ⟨h'.live, h'.spell.trans h.spell⟩

/-! ### Splits and locks -/

/-- The pages of a node are divided by a split. -/
theorem pageWeight_split {k : RadixKey} {a : TreeNodeData} {pages : List Int} {q : Nat}
    (hc : Covers c.pageSize (slotsOf a) pages) (hq : q * c.pageSize ≤ (slotsOf a).length) :
    (∃ pages, Covers c.pageSize (slotsOf (a.sliceTo (q * c.pageSize))) pages) ∧
      (∃ pages, Covers c.pageSize (slotsOf (a.sliceFrom (q * c.pageSize))) pages) ∧
      pageWeight c p k (a.sliceTo (q * c.pageSize)) +
        pageWeight c p k (a.sliceFrom (q * c.pageSize)) = pageWeight c p k a := by
  have hn := c.pageSize_pos
  have hto : slotsOf (a.sliceTo (q * c.pageSize)) = (slotsOf a).take (q * c.pageSize) := by
    cases ha : a.value <;> simp [slotsOf, TreeNodeData.sliceTo, ha]
  have hfrom : slotsOf (a.sliceFrom (q * c.pageSize)) = (slotsOf a).drop (q * c.pageSize) := by
    cases ha : a.value <;> simp [slotsOf, TreeNodeData.sliceFrom, ha]
  have htake := hc.take hn hq
  rw [numPagesOf_mul hn] at htake
  have hdrop := hc.drop hn q
  rw [← hto] at htake
  rw [← hfrom] at hdrop
  refine ⟨⟨_, htake⟩, ⟨_, hdrop⟩, ?_⟩
  simp only [pageWeight, htake.pagesOf_eq hn, hdrop.pagesOf_eq hn, hc.pagesOf_eq hn]
  rw [← Nat.cast_add, ← List.count_append, List.take_append_drop]

/-- **Reshaping** moves no page. -/
theorem reshaped_pages (h : Books c s ∅) (hp : NodesPaged c s) (hr : Reshaped c s s') :
    NodesPaged c s' ∧ ∀ p, treeCount c s' p = treeCount c s p := by
  obtain ⟨-, -, -, ht | ⟨i, dTop, dRest, len, k, ok, ht⟩⟩ := hr
  · exact ⟨by rw [NodesPaged, ht]; exact hp, fun p => by rw [treeCount, ht]; rfl⟩
  obtain ⟨q, b⟩ := h.wf.below ok.live ok.ne_root
  obtain ⟨a, ha⟩ := ok.live.data
  obtain ⟨v, hv, hlen⟩ := h.value ok.ne_root ok.key ha
  obtain ⟨pages, hc⟩ := hp i a ok.ne_root ha
  have hdvd : c.pageSize ∣ len := ok.page_dvd
  obtain ⟨m, rfl⟩ := hdvd
  have hlt : c.pageSize * m < k.len := by simpa using ok.lt
  have hcut : m * c.pageSize ≤ (slotsOf a).length := by
    rw [slotsOf, hv, getD_some, hlen, Nat.mul_comm]
    exact hlt.le
  have hsplit := fun p k => pageWeight_split (k := k) (p := p) hc hcut
  simp only [Nat.mul_comm m] at hsplit
  obtain ⟨hto, hfrom, -⟩ := hsplit 0 k
  refine ⟨fun j a' hj ha' => ?_, fun p => ?_⟩
  · rw [ht, splitTree, root_split] at hj
    rw [ht, splitTree, b.dataOf_split, ha] at ha'
    split_ifs at ha' with h₁ h₂
    · cases ha'
      exact hto
    · cases ha'
      exact hfrom
    · exact hp j a' hj ha'
  · have hw := (hsplit p k).2.2
    rw [treeCount, ht, splitTree, h.wf.total_split ok ha, ← treeCount]
    simp only [pageWeight] at hw ⊢
    omega

theorem reshaped_keeps (h : Books c s ∅) (hr : Reshaped c s s') (hi : s.tree.Live i) :
    Keeps c s s' i := by
  obtain ⟨-, -, -, ht | ⟨j, dTop, dRest, len, k, ok, ht⟩⟩ := hr
  · exact ⟨by rw [ht]; exact hi, by rw [ht]⟩
  obtain ⟨q, b⟩ := h.wf.below ok.live ok.ne_root
  refine ⟨?_, ?_⟩
  · rw [ht, splitTree, b.live_split]
    exact .inr hi
  · rw [ht, splitTree, h.wf.spellTo_split ok hi]

/-- **Locks** move no page. -/
theorem relocked_pages (hp : NodesPaged c s)
    (hr : Relocked s s' l n) : NodesPaged c s' ∧ ∀ p, treeCount c s' p = treeCount c s p := by
  have hslots : ∀ j, (s'.tree.dataOf j).map slotsOf = (s.tree.dataOf j).map slotsOf := fun j => by
    have e := congrArg (Option.map fun v : Option (List Slot) => v.getD []) (hr.value j)
    rw [map_map, map_map] at e
    exact e
  refine ⟨fun j a' hj ha' => ?_, fun p => ?_⟩
  · have e := hslots j
    rw [ha', map_some] at e
    obtain ⟨a, ha, e⟩ := map_eq_some_iff.mp e.symm
    rw [← e]
    exact hp j a (hr.shape.root ▸ hj) ha
  · rw [treeCount, treeCount, total, total, hr.shape.counter]
    refine Finset.sum_congr rfl fun j _ => ?_
    simp only [weight, hr.shape.root, hr.shape.keyOf]
    have e := congrArg (Option.map fun v : List Slot => ((pagesOf c.pageSize v).count p : Int))
      (hslots j)
    rw [map_map, map_map] at e
    cases s.tree.keyOf j with
    | none => rfl
    | some k => exact congrArg (fun o => if j = s.tree.root then 0 else Option.getD o 0) e

theorem relocked_keeps (h : Books c s ∅) (hr : Relocked s s' l n)
    (hi : s.tree.Live i) : Keeps c s s' i :=
  ⟨hr.shape.live.mpr hi, hr.shape.spellTo h.wf hi⟩

/-! ### Insertion -/

section Insert

variable {r : RadixKey} {value : List Slot} {m : Nat}

/-- **An insertion** adds the pages of the slots past the cached prefix. -/
theorem inserted_pages (h : Books c s ∅) (hp : NodesPaged c s) (hi : Inserted c s s' r value m)
    (hlen : value.length = r.len) {pages : List Int} (hc : Covers c.pageSize (value.drop m) pages) :
    NodesPaged c s' ∧ ∀ p, treeCount c s' p = treeCount c s p + (pages.count p : Int) := by
  obtain ⟨-, ⟨rfl, hr⟩ | ⟨s₁, w, now, priority, chunked, -, hr, hk, -, hval, -, -, rfl⟩⟩ := hi
  · -- nothing is left
    have hnil : pages = [] := by
      have := hc.length
      rw [List.drop_eq_nil_of_le (Nat.le_of_eq hlen), List.length_nil,
        numPagesOf_zero c.pageSize_pos] at this
      exact List.eq_nil_of_length_eq_zero this
    obtain ⟨hp', hcount⟩ := reshaped_pages h hp hr
    exact ⟨hp', fun p => by rw [hcount p, hnil]; simp⟩
  · obtain ⟨hp₁, hcount⟩ := reshaped_pages h hp hr
    have hwf := (h.reshape hr).wf
    have hpm := hwf.ne_counter hk.live
    have ht := RadixCache.tree_insertLeaf s₁ w now priority chunked
    rw [← hval] at hc
    refine ⟨fun j a' hj ha' => ?_, fun p => ?_⟩
    · rw [ht, root_addLeaf] at hj
      rw [ht, dataOf_addLeaf hpm] at ha'
      split_ifs at ha' with hjm
      · cases ha'
        exact ⟨pages, hc⟩
      · exact hp₁ j a' hj ha'
    · rw [treeCount, ht, hwf.total_addLeaf hk, ← treeCount, hcount p]
      have : slotsOf ⟨some w.value, 0⟩ = w.value := rfl
      rw [pageWeight, this, hc.pagesOf_eq c.pageSize_pos]

theorem inserted_keeps (h : Books c s ∅) (hi : Inserted c s s' r value m) (hl : s.tree.Live i) :
    Keeps c s s' i := by
  obtain ⟨-, ⟨-, hr⟩ | ⟨s₁, w, now, priority, chunked, -, hr, hk, -, -, -, -, rfl⟩⟩ := hi
  · exact reshaped_keeps h hr hl
  have hk₁ := reshaped_keeps h hr hl
  have hwf := (h.reshape hr).wf
  refine hk₁.trans ⟨?_, ?_⟩
  · rw [RadixCache.tree_insertLeaf, live_addLeaf (hwf.ne_counter hk.live)]
    exact .inr hk₁.live
  · rw [RadixCache.tree_insertLeaf, hwf.spellTo_addLeaf hk hk₁.live]

end Insert

/-! ### Eviction -/

section Evict

variable {g : ServerConfig} {s₁ : RadixCache} {x : NodeId}

/-- Removing a leaf takes its pages out of the tree. -/
theorem deleteLeaf_pages (h : Books c s ∅) (hp : NodesPaged c s) (hx : s.EvictableLeaf x)
    (hdel : s.deleteLeaf c x = some s₁) {v : List Slot} (hv : s.valueOf x = some v) :
    NodesPaged c s₁ ∧
      ∀ p, treeCount c s₁ p + ((pagesOf c.pageSize v).count p : Int) = treeCount c s p := by
  obtain ⟨s₂, d, hdel', -, ok, ht⟩ := h.deleteLeaf hx
  cases hdel.symm.trans hdel'
  obtain ⟨q, b⟩ := h.wf.below ok.live ok.ne_root
  obtain ⟨k, hk⟩ := ok.live.key
  obtain ⟨a, ha⟩ := ok.live.data
  rw [RadixCache.valueOf_eq ha] at hv
  refine ⟨fun j a' hj ha' => ?_, fun p => ?_⟩
  · rw [ht, root_removeLeaf] at hj
    rw [ht, b.dataOf_removeLeaf] at ha'
    split_ifs at ha'
    exact hp j a' hj ha'
  · rw [treeCount, ht, h.wf.total_removeLeaf ok hk ha, ← treeCount]
    have : slotsOf a = v := by rw [slotsOf, hv, getD_some]
    rw [pageWeight, this]
    omega

theorem deleteLeaf_keeps (h : RadixCache.Inv c s held) (hx : s.EvictableLeaf x)
    (hdel : s.deleteLeaf c x = some s₁) (hi : i ∈ held) : Keeps c s s₁ i := by
  obtain ⟨s₂, d, hdel', -, ok, ht⟩ := h.books.deleteLeaf hx
  cases hdel.symm.trans hdel'
  have hwf := h.books.wf
  obtain ⟨q, b⟩ := hwf.below ok.live ok.ne_root
  have hl := h.held_live i hi
  have hne : i ≠ x := by
    rintro rfl
    exact h.not_mem_path_of_lock hx hi (hwf.mem_path_self b.parent)
  refine ⟨?_, ?_⟩
  · rw [ht, b.live_removeLeaf]
    exact ⟨hne, hl⟩
  · rw [ht, hwf.spellTo_removeLeaf ok hl hne]

/-- **The eviction loop** hands every page it takes out of the tree to the allocator. -/
theorem evictLoop_spec {numTokens : Nat} {rank : NodeId → Nat} {fuel : Nat} {heap : List NodeId}
    {a : PagedAllocator} (n : Nat) (h : RadixCache.Inv g.cache s held) (hp : NodesPaged g.cache s)
    (hheap : RadixCache.HeapOk s heap) (hfuel : s.liveNodes.card < fuel) :
    ∃ s' a', evictLoop g numTokens rank fuel s a heap n = some (s', a') ∧
      RadixCache.Inv g.cache s' held ∧ NodesPaged g.cache s' ∧
      (∀ p, (a'.count p : Int) + treeCount g.cache s' p = a.count p + treeCount g.cache s p) ∧
      ∀ i ∈ held, Keeps g.cache s s' i := by
  induction fuel generalizing s a heap n with
  | zero => omega
  | succ fuel ih =>
    have stop : ∃ s' a', some (s, a) = some (s', a') ∧
        RadixCache.Inv g.cache s' held ∧ NodesPaged g.cache s' ∧
        (∀ p, (a'.count p : Int) + treeCount g.cache s' p = a.count p + treeCount g.cache s p) ∧
        ∀ i ∈ held, Keeps g.cache s s' i :=
      ⟨s, a, rfl, h, hp, fun _ => rfl, fun i hi => ⟨h.held_live i hi, rfl⟩⟩
    simp only [evictLoop]
    split_ifs with hlt
    swap
    · exact stop
    rcases hmin : s.heapMin g.cache rank heap with - | x
    · exact stop
    obtain ⟨v, q, s₁, heap₁, hv, hq, hdel, hx, -, hpush, hheap₁, -, hcard, -⟩ :=
      RadixCache.evict_step h.books hheap hmin
    simp only [hv, hq, hdel, bind_eq_bind, bind_some, hpush]
    obtain ⟨hp₁, hcount⟩ := deleteLeaf_pages h.books hp hx hdel hv
    obtain ⟨s₂, a₂, hres, hinv, hp₂, hsum, hkeep⟩ := ih (a := a.freeSegment g.pool v 0)
      (n + v.length) (h.deleteLeaf hx hdel) hp₁ hheap₁ (by omega)
    refine ⟨s₂, a₂, hres, hinv, hp₂, fun p => ?_, fun i hi => ?_⟩
    · have hfree := a.count_freeSegment (c := g.pool) (l := v) (dvd_zero _) p
      have h₁ := hsum p
      have h₂ := hcount p
      have hps : g.pool.pageSize = g.cache.pageSize := rfl
      rw [hps] at hfree
      omega
    · exact (deleteLeaf_keeps h hx hdel hi).trans (hkeep i hi)

end Evict

end SglangRuntime.KvPages
