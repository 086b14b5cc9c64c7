import SglangRuntime.MemCache.RadixCache.Model

/-!
# Memory cache — the books of `RadixCache`

`RadixCache` keeps two counters and a set of leaves next to the tree, and updates them in six
places.  `Books` says what they stand for: the tree is a well-formed trie, every node has one slot
per unit, the counters are sums over the tree, and the leaf set is the set of unlocked childless
nodes.  While an operation is under way the leaf set may be out of date at the nodes whose status
it has yet to refresh; these are the parameter `dirty`.

* `Books.updateLeafStatus`: refreshing a node's status makes it clean.
* `Books.reshape`: what a lookup or the walk of an insertion does to the tree, at most one split.
* `Books.insertLeaf`, `Books.incLockStep`, `Books.decLockStep`, `Books.deleteLeaf`.
-/

namespace SglangRuntime.RadixCache

open Foundation Foundation.Trie RadixKey TreeNodeData Option List

variable {c : CacheInitParams} {s s' : RadixCache} {i j : NodeId} {dirty : Set NodeId}
  {a : TreeNodeData}

/-- The weight of a node in `evictable_size_`. -/
def evictableWeight (k : RadixKey) (a : TreeNodeData) : Int := if a.lockRef = 0 then k.len else 0

/-- The weight of a node in `protected_size_`. -/
def protectedWeight (k : RadixKey) (a : TreeNodeData) : Int := if 0 < a.lockRef then k.len else 0

/-- A childless non-root node of the tree with `lock_ref` 0. -/
def EvictableLeaf (s : RadixCache) (i : NodeId) : Prop :=
  i ≠ s.tree.root ∧ s.tree.Live i ∧ (∀ j, s.tree.parentOf j ≠ some i) ∧ s.lockRefOf i = 0

structure Books (c : CacheInitParams) (s : RadixCache) (dirty : Set NodeId) : Prop where
  wf : s.tree.WF c.ops
  root_data : s.tree.dataOf s.tree.root = some ⟨some [], 1⟩
  value : ∀ {i k a}, i ≠ s.tree.root → s.tree.keyOf i = some k → s.tree.dataOf i = some a →
    ∃ v, a.value = some v ∧ v.length = k.len
  lock_nonneg : ∀ {i a}, s.tree.dataOf i = some a → 0 ≤ a.lockRef
  evictable : s.evictableSize = s.tree.total evictableWeight
  protect : s.protectedSize = s.tree.total protectedWeight
  leaves : ∀ {i}, i ∉ dirty → (i ∈ s.evictableLeaves ↔ s.EvictableLeaf i)

theorem lockRefOf_eq (h : s.tree.dataOf i = some a) :
    s.lockRefOf i = a.lockRef := by simp [lockRefOf, h]

theorem valueOf_eq (h : s.tree.dataOf i = some a) : s.valueOf i = a.value := by simp [valueOf, h]

theorem keyLen_eq {k : RadixKey} (h : s.tree.keyOf i = some k) : s.keyLen i = k.len := by
  simp [keyLen, h]

namespace Books

section

variable (h : Books c s dirty) {dirty' : Set NodeId}
include h

theorem setLeaves (ht : s'.tree = s.tree)
    (he : s'.evictableSize = s.evictableSize) (hp : s'.protectedSize = s.protectedSize)
    (hl : ∀ {i}, i ∉ dirty' → (i ∈ s'.evictableLeaves ↔ s.EvictableLeaf i)) : Books c s' dirty' := by
  refine ⟨ht ▸ h.wf, ht ▸ h.root_data, ?_, ?_, ?_, ?_, ?_⟩
  · rw [ht]; exact h.value
  · rw [ht]; exact h.lock_nonneg
  · rw [ht, he]; exact h.evictable
  · rw [ht, hp]; exact h.protect
  · simp only [EvictableLeaf, lockRefOf, ht]; exact hl

/-- `Books` reads the tree, the two counters and the leaf set only. -/
theorem congr (ht : s'.tree = s.tree)
    (he : s'.evictableSize = s.evictableSize) (hp : s'.protectedSize = s.protectedSize)
    (hl : s'.evictableLeaves = s.evictableLeaves) : Books c s' dirty :=
  h.setLeaves ht he hp (hl ▸ h.leaves)

theorem mono (hsub : dirty ⊆ dirty') : Books c s dirty' :=
  { h with leaves := fun hi => h.leaves fun hd => hi (hsub hd) }

theorem not_evicted (hi : s.tree.Live i) : s.evicted i = false := by
  obtain ⟨a, ha⟩ := hi.data
  obtain ⟨k, hk⟩ := hi.key
  rw [evicted, valueOf_eq ha]
  by_cases e : i = s.tree.root
  · subst e
    rw [h.root_data, some.injEq] at ha
    subst ha
    rfl
  · obtain ⟨v, hv, -⟩ := h.value e hk ha
    rw [hv]
    rfl

theorem lockRefOf_nonneg (i : NodeId) : 0 ≤ s.lockRefOf i := by
  rcases ha : s.tree.dataOf i with - | a
  · simp [lockRefOf, ha]
  · rw [lockRefOf_eq ha]; exact h.lock_nonneg ha

theorem any_child_iff : ((s.tree.childIds i).any fun child => !s.evicted child) ↔
      ∃ j, s.tree.parentOf j = some i := by
  rw [List.any_eq_true]
  constructor
  · rintro ⟨j, hj, -⟩
    exact ⟨j, h.wf.mem_childIds.mp hj⟩
  · rintro ⟨j, hj⟩
    exact ⟨j, h.wf.mem_childIds.mpr hj, by rw [h.not_evicted (live_of_parentOf hj)]; rfl⟩

/-- **Refreshing a node's status.** -/
theorem updateLeafStatus (hi : s.tree.Live i) : Books c (s.updateLeafStatus i) (dirty \ {i}) := by
  have spec : i ∈ (s.updateLeafStatus i).evictableLeaves ↔ s.EvictableLeaf i := by
    simp only [RadixCache.updateLeafStatus, h.not_evicted hi, Bool.false_or, decide_eq_true_eq]
    by_cases hlock : 0 < s.lockRefOf i
    · simp only [hlock, if_true, Finset.mem_erase, ne_eq, not_true, false_and, false_iff]
      rintro ⟨-, -, -, h0⟩
      omega
    have h0 : s.lockRefOf i = 0 := le_antisymm (not_lt.mp hlock) (h.lockRefOf_nonneg i)
    have hroot : i ≠ s.tree.root := by
      rintro rfl
      rw [lockRefOf_eq h.root_data] at h0
      cases h0
    rw [if_neg hlock]
    by_cases hc : ∃ j, s.tree.parentOf j = some i
    · rw [if_pos (h.any_child_iff.mpr hc)]
      simp only [Finset.mem_erase, ne_eq, not_true, false_and, false_iff]
      rintro ⟨-, -, hno, -⟩
      obtain ⟨j, hj⟩ := hc
      exact hno j hj
    · rw [if_neg fun e => hc (h.any_child_iff.mp e)]
      simp only [Finset.mem_insert, true_or, true_iff]
      exact ⟨hroot, hi, fun j hj => hc ⟨j, hj⟩, h0⟩
  have other : ∀ j, j ≠ i →
      (j ∈ (s.updateLeafStatus i).evictableLeaves ↔ j ∈ s.evictableLeaves) := by
    intro j hj
    simp only [RadixCache.updateLeafStatus]
    split_ifs <;> simp [hj]
  have tree : (s.updateLeafStatus i).tree = s.tree := by
    simp only [RadixCache.updateLeafStatus]; split_ifs <;> rfl
  have hev : (s.updateLeafStatus i).evictableSize = s.evictableSize := by
    simp only [RadixCache.updateLeafStatus]; split_ifs <;> rfl
  have hpr : (s.updateLeafStatus i).protectedSize = s.protectedSize := by
    simp only [RadixCache.updateLeafStatus]; split_ifs <;> rfl
  refine h.setLeaves tree hev hpr fun {j} hj => ?_
  by_cases hji : j = i
  · rw [hji]; exact spec
  · rw [other j hji]
    exact h.leaves fun hd => hj ⟨hd, hji⟩

end

end Books

/-! ### Splits -/

section

variable (c : CacheInitParams)

/-- The tree after `_split_node`. -/
def splitTree (T : Trie RadixKey ChildKey TreeNodeData) (i : NodeId)
    (dTop dRest : ChildKey) (len : Nat) : Trie RadixKey ChildKey TreeNodeData :=
  T.split c.ops i dTop dRest len (.sliceTo len) (.sliceFrom len)

/-- `s'` is `s` up to the eviction strategies' bookkeeping and at most one split. -/
def Reshaped (s s' : RadixCache) : Prop :=
  s'.evictableSize = s.evictableSize ∧ s'.protectedSize = s.protectedSize ∧
    s'.evictableLeaves = s.evictableLeaves ∧
    (s'.tree = s.tree ∨ ∃ i dTop dRest len k, SplitOk c.ops s.tree i dTop dRest len k ∧
      s'.tree = splitTree c s.tree i dTop dRest len)

theorem Reshaped.refl (s : RadixCache) : Reshaped c s s :=
  ⟨rfl, rfl, rfl, .inl rfl⟩

end

section Split

variable {k : RadixKey} {a : TreeNodeData} {dTop dRest : ChildKey} {len : Nat}

theorem weight_split (w : RadixKey → TreeNodeData → Int)
    (hw : w = evictableWeight ∨ w = protectedWeight) (hlen : len ≤ k.len) :
    w (k.sliceTo len) (a.sliceTo len) + w (k.sliceFrom len) (a.sliceFrom len) = w k a := by
  have e : ((k.sliceTo len).len : Int) + (k.sliceFrom len).len = k.len := by
    rw [len_sliceTo, len_sliceFrom]
    omega
  rcases hw with rfl | rfl
  · by_cases h0 : a.lockRef = 0 <;> simp [evictableWeight, h0, e]
  · by_cases h0 : 0 < a.lockRef <;> simp [protectedWeight, h0, e]

theorem lockRef_split (h : s.tree.WF c.ops) (sp : SplitOk c.ops s.tree i dTop dRest len k)
    (hs : s'.tree = splitTree c s.tree i dTop dRest len) :
    s'.lockRefOf j = if j = s.tree.counter then s.lockRefOf i else s.lockRefOf j := by
  obtain ⟨p, b⟩ := h.below sp.live sp.ne_root
  obtain ⟨a, ha⟩ := sp.live.data
  simp only [lockRefOf, hs, splitTree, b.dataOf_split, ha, map_some]
  split_ifs with h₁ h₂
  · rfl
  · subst h₂; simp [ha, TreeNodeData.sliceFrom]
  · rfl

/-- A split neither makes nor unmakes an evictable leaf. -/
theorem evictableLeaf_split (h : s.tree.WF c.ops) (sp : SplitOk c.ops s.tree i dTop dRest len k)
    (hs : s'.tree = splitTree c s.tree i dTop dRest len) :
    s'.EvictableLeaf j ↔ s.EvictableLeaf j := by
  obtain ⟨p, b⟩ := h.below sp.live sp.ne_root
  have hpar : ∀ x, s'.tree.parentOf x = if x = s.tree.counter then some p else
      if x = i then some s.tree.counter else s.tree.parentOf x := fun x => by
    rw [hs, splitTree, b.parentOf_split]
  have hroot : s'.tree.root = s.tree.root := by rw [hs, splitTree, root_split]
  have hlive : s'.tree.Live j ↔ j = s.tree.counter ∨ s.tree.Live j := by
    rw [hs, splitTree, b.live_split]
  by_cases hjm : j = s.tree.counter
  · -- the fresh node is the parent of the one split
    constructor
    · rintro ⟨-, -, hno, -⟩
      exact absurd (by rw [hpar, if_neg b.ne_counter, if_pos rfl, hjm]) (hno i)
    · rintro ⟨-, hl, -, -⟩
      exact absurd (hjm ▸ hl) h.fresh
  · have hchild : (∀ x, s'.tree.parentOf x ≠ some j) ↔ ∀ x, s.tree.parentOf x ≠ some j := by
      constructor
      · intro hno x hx
        by_cases hxi : x = i
        · subst hxi
          rw [b.parent, some.injEq] at hx
          exact hno s.tree.counter (by rw [hpar, if_pos rfl, hx])
        · have hxm : x ≠ s.tree.counter := h.ne_counter (live_of_parentOf hx)
          exact hno x (by rw [hpar, if_neg hxm, if_neg hxi, hx])
      · intro hno x hx
        rw [hpar] at hx
        split_ifs at hx with h₁ h₂
        · exact hno i (by rw [b.parent, hx])
        · exact hjm (some.inj hx).symm
        · exact hno x hx
    simp only [EvictableLeaf, hroot, hlive, hjm, false_or, hchild, lockRef_split h sp hs, if_false]

theorem Books.split (h : Books c s ∅) (sp : SplitOk c.ops s.tree i dTop dRest len k)
    (hs : s'.tree = splitTree c s.tree i dTop dRest len)
    (he : s'.evictableSize = s.evictableSize) (hp : s'.protectedSize = s.protectedSize)
    (hl : s'.evictableLeaves = s.evictableLeaves) : Books c s' ∅ := by
  obtain ⟨p, b⟩ := h.wf.below sp.live sp.ne_root
  obtain ⟨a, ha⟩ := sp.live.data
  obtain ⟨v, hv, hvlen⟩ := h.value sp.ne_root sp.key ha
  have hlt : len < k.len := by simpa using sp.lt
  have hkey : ∀ x, s'.tree.keyOf x = if x = s.tree.counter then some (k.sliceTo len) else
      if x = i then some (k.sliceFrom len) else s.tree.keyOf x := fun x => by
    rw [hs, splitTree, b.keyOf_split, sp.key]; rfl
  have hdata : ∀ x, s'.tree.dataOf x = if x = s.tree.counter then some (a.sliceTo len) else
      if x = i then some (a.sliceFrom len) else s.tree.dataOf x := fun x => by
    rw [hs, splitTree, b.dataOf_split, ha]; rfl
  have hroot : s'.tree.root = s.tree.root := by rw [hs, splitTree, root_split]
  refine ⟨hs ▸ h.wf.split sp, ?_, ?_, ?_, ?_, ?_, ?_⟩
  · rw [hroot, hdata, if_neg h.wf.root_ne_counter, if_neg sp.ne_root.symm, h.root_data]
  · intro x k' a' hx hk' ha'
    rw [hkey] at hk'
    rw [hdata] at ha'
    rw [hroot] at hx
    split_ifs at hk' ha' with h₁ h₂
    · cases hk'; cases ha'
      refine ⟨v.take len, by simp [TreeNodeData.sliceTo, hv], ?_⟩
      rw [length_take, hvlen, len_sliceTo]
    · cases hk'; cases ha'
      refine ⟨v.drop len, by simp [TreeNodeData.sliceFrom, hv], ?_⟩
      rw [length_drop, hvlen, len_sliceFrom]
    · exact h.value hx hk' ha'
  · intro x a' ha'
    rw [hdata] at ha'
    split_ifs at ha' with h₁ h₂
    · cases ha'; rw [lockRef_sliceTo]; exact h.lock_nonneg ha
    · cases ha'; rw [lockRef_sliceFrom]; exact h.lock_nonneg ha
    · exact h.lock_nonneg ha'
  · have := weight_split (a := a) evictableWeight (.inl rfl) hlt.le
    rw [he, h.evictable, hs, splitTree, h.wf.total_split sp ha]
    simp only [ops_take, ops_drop]
    omega
  · have := weight_split (a := a) protectedWeight (.inr rfl) hlt.le
    rw [hp, h.protect, hs, splitTree, h.wf.total_split sp ha]
    simp only [ops_take, ops_drop]
    omega
  · intro x _
    rw [hl, evictableLeaf_split h.wf sp hs]
    exact h.leaves (Set.notMem_empty _)

/-- **Reshaping keeps the books.** -/
theorem Books.reshape (h : Books c s ∅) (hr : Reshaped c s s') : Books c s' ∅ := by
  obtain ⟨he, hp, hl, ht | ⟨i, dTop, dRest, len, k, sp, hs⟩⟩ := hr
  · exact h.congr ht he hp hl
  · exact h.split sp hs he hp hl

end Split

/-! ### Locks -/

@[simp] theorem tree_updateLeafStatus (s : RadixCache) (i : NodeId) :
    (s.updateLeafStatus i).tree = s.tree := by
  simp only [RadixCache.updateLeafStatus]; split_ifs <;> rfl

section Lock

variable {k : RadixKey} {a : TreeNodeData} {l : List NodeId}

/-- A changed lock count, with the counters moved accordingly, leaves the books in order up to the
leaf status of that node. -/
theorem Books.setLock (h : Books c s dirty) {f : Int → Int} (hi : i ≠ s.tree.root)
    (hk : s.tree.keyOf i = some k) (ha : s.tree.dataOf i = some a) (hf : 0 ≤ f a.lockRef)
    (ht : s'.tree = s.tree.modifyData i fun a => { a with lockRef := f a.lockRef })
    (he : s'.evictableSize = s.evictableSize - evictableWeight k a +
      evictableWeight k { a with lockRef := f a.lockRef })
    (hp : s'.protectedSize = s.protectedSize - protectedWeight k a +
      protectedWeight k { a with lockRef := f a.lockRef })
    (hl : s'.evictableLeaves = s.evictableLeaves) : Books c s' (dirty ∪ {i}) := by
  have hdata : ∀ j, s'.tree.dataOf j =
      if j = i then some { a with lockRef := f a.lockRef } else s.tree.dataOf j := fun j => by
    rw [ht, dataOf_modifyData, ha]; rfl
  refine ⟨ht ▸ h.wf.modifyData i _, ?_, ?_, ?_, ?_, ?_, ?_⟩
  · have : s'.tree.root = s.tree.root := by rw [ht]; rfl
    rw [this, hdata, if_neg hi.symm, h.root_data]
  · intro j k' a' hj hk' ha'
    rw [ht] at hj hk'
    rw [keyOf_modifyData] at hk'
    rw [hdata] at ha'
    split_ifs at ha' with e
    · subst e
      obtain ⟨v, hv, hlen⟩ := h.value hj hk' ha
      cases ha'
      exact ⟨v, hv, hlen⟩
    · exact h.value hj hk' ha'
  · intro j a' ha'
    rw [hdata] at ha'
    split_ifs at ha' with e
    · cases ha'; exact hf
    · exact h.lock_nonneg ha'
  · rw [he, h.evictable, ht, h.wf.total_modifyData hi hk ha]
  · rw [hp, h.protect, ht, h.wf.total_modifyData hi hk ha]
  · intro j hj
    rw [Set.mem_union, Set.mem_singleton_iff, not_or] at hj
    have hlock : s'.lockRefOf j = s.lockRefOf j := by
      rw [lockRefOf, lockRefOf, hdata, if_neg hj.2]
    have e : s'.EvictableLeaf j ↔ s.EvictableLeaf j := by
      simp only [EvictableLeaf, hlock, ht, root_modifyData, live_modifyData, parentOf_modifyData]
    rw [hl, e]
    exact h.leaves hj.1

/-- The locks of `l` moved by `n`, and nothing else about the tree. -/
structure Relocked (s s' : RadixCache) (l : List NodeId) (n : Int) : Prop where
  shape : SameShape s.tree s'.tree
  value : ∀ j, (s'.tree.dataOf j).map value = (s.tree.dataOf j).map value
  lockRef : ∀ j, s.tree.Live j → s'.lockRefOf j = s.lockRefOf j + if j ∈ l then n else 0

theorem Relocked.nil (s : RadixCache) (n : Int) : Relocked s s [] n :=
  ⟨.refl _, fun _ => rfl, fun _ _ => by simp⟩

theorem Relocked.cons {s'' : RadixCache} {n : Int} (hi : i ∉ l)
    (ht : s'.tree = s.tree.modifyData i fun a => { a with lockRef := a.lockRef + n })
    (h : Relocked s' s'' l n) : Relocked s s'' (i :: l) n := by
  have hshape : SameShape s.tree s'.tree := ht ▸ .modifyData s.tree i _
  refine ⟨hshape.trans h.shape, fun j => (h.value j).trans ?_, fun j hj => ?_⟩
  · rw [ht, dataOf_modifyData]
    split_ifs with e
    · subst e; cases s.tree.dataOf j <;> rfl
    · rfl
  · obtain ⟨a, ha⟩ := hj.data
    rw [h.lockRef j (hshape.live.mpr hj), lockRefOf, ht, dataOf_modifyData]
    by_cases e : j = i
    · subst e; simp [ha, hi, lockRefOf]
    · simp [e, lockRefOf]

/-- One iteration of a lock walk: move the counters, change the lock count, refresh the status. -/
theorem Books.relock (h : Books c s ∅) (f : Int → Int) (hr : i ≠ s.tree.root)
    (hk : s.tree.keyOf i = some k) (ha : s.tree.dataOf i = some a) (hf : 0 ≤ f a.lockRef)
    {ev pr : Int} (he : ev = s.evictableSize - evictableWeight k a +
      evictableWeight k { a with lockRef := f a.lockRef })
    (hp : pr = s.protectedSize - protectedWeight k a +
      protectedWeight k { a with lockRef := f a.lockRef }) :
    Books c (RadixCache.updateLeafStatus
      ⟨s.tree.modifyData i fun a => { a with lockRef := f a.lockRef }, s.nodeMeta, ev, pr,
        s.evictableLeaves⟩ i) ∅ := by
  have hb : Books c ⟨s.tree.modifyData i fun a => { a with lockRef := f a.lockRef }, s.nodeMeta,
      ev, pr, s.evictableLeaves⟩ (∅ ∪ {i}) := h.setLock hr hk ha hf rfl he hp rfl
  refine (hb.updateLeafStatus (i := i) ?_).mono (by simp)
  simp only [live_modifyData]
  exact live_of_keyOf hk

theorem incLockStep_books (h : Books c s ∅) (hr : i ≠ s.tree.root) (hi : s.tree.Live i)
    (delta : Int) : Books c (incLockStep (s, delta) i).1 ∅ ∧
      (incLockStep (s, delta) i).1.tree =
        s.tree.modifyData i fun a => { a with lockRef := a.lockRef + 1 } := by
  obtain ⟨k, hk⟩ := hi.key
  obtain ⟨a, ha⟩ := hi.data
  have h0 := h.lock_nonneg ha
  simp only [incLockStep, lockRefOf_eq ha, keyLen_eq hk]
  by_cases hz : a.lockRef = 0
  · simp only [hz, if_true, tree_updateLeafStatus, and_true]
    refine h.relock (fun n => n + 1) hr hk ha (by omega) ?_ ?_
    · simp [evictableWeight, hz]
    · simp [protectedWeight, hz]
  · simp only [hz, if_false, tree_updateLeafStatus, and_true]
    have hpos : 0 < a.lockRef := lt_of_le_of_ne h0 (Ne.symm hz)
    refine h.relock (fun n => n + 1) hr hk ha (by omega) ?_ ?_
    · have : a.lockRef + 1 ≠ 0 := by omega
      simp [evictableWeight, hz, this]
    · have : 0 < a.lockRef + 1 := by omega
      simp [protectedWeight, hpos, this]

theorem decLockStep_books (h : Books c s ∅) (hr : i ≠ s.tree.root) (hi : s.tree.Live i)
    (hlock : 0 < s.lockRefOf i) (delta : Int) : Books c (decLockStep (s, delta) i).1 ∅ ∧
      (decLockStep (s, delta) i).1.tree =
        s.tree.modifyData i fun a => { a with lockRef := a.lockRef + -1 } := by
  obtain ⟨k, hk⟩ := hi.key
  obtain ⟨a, ha⟩ := hi.data
  rw [lockRefOf_eq ha] at hlock
  simp only [decLockStep, lockRefOf_eq ha, keyLen_eq hk, ← sub_eq_add_neg]
  by_cases hz : a.lockRef = 1
  · simp only [hz, if_true, tree_updateLeafStatus, and_true]
    refine h.relock (fun n => n - 1) hr hk ha (by omega) ?_ ?_
    · simp [evictableWeight, hz]
    · simp [protectedWeight, hz]
  · simp only [hz, if_false, tree_updateLeafStatus, and_true]
    refine h.relock (fun n => n - 1) hr hk ha (by omega) ?_ ?_
    · have h1 : a.lockRef - 1 ≠ 0 := by omega
      have h2 : a.lockRef ≠ 0 := by omega
      simp [evictableWeight, h1, h2]
    · have h1 : 1 < a.lockRef := by omega
      simp [protectedWeight, hlock, h1]

/-- **A lock walk moves the lock of every node on the path by `n`**, when each may be moved so. -/
theorem foldl_lockStep {step : RadixCache × Int → NodeId → RadixCache × Int} (n : Int)
    (ok : Int → Prop) (hstep : ∀ {s : RadixCache} {i : NodeId}, Books c s ∅ → i ≠ s.tree.root →
      s.tree.Live i → ok (s.lockRefOf i) → ∀ delta, Books c (step (s, delta) i).1 ∅ ∧
        (step (s, delta) i).1.tree =
          s.tree.modifyData i fun a => { a with lockRef := a.lockRef + n })
    (h : Books c s ∅) (hnd : l.Nodup)
    (hl : ∀ x ∈ l, x ≠ s.tree.root ∧ s.tree.Live x ∧ ok (s.lockRefOf x)) (delta : Int) :
    Books c (l.foldl step (s, delta)).1 ∅ ∧ Relocked s (l.foldl step (s, delta)).1 l n := by
  induction l generalizing s delta with
  | nil => exact ⟨h, .nil s n⟩
  | cons i l ih =>
    obtain ⟨hi, hnd⟩ := nodup_cons.mp hnd
    obtain ⟨hir, hil, hlock⟩ := hl i mem_cons_self
    obtain ⟨hb, ht⟩ := hstep h hir hil hlock delta
    rcases hs : step (s, delta) i with ⟨s₁, delta₁⟩
    rw [hs] at hb ht
    obtain ⟨hb', hr⟩ := ih hb hnd (fun x hx => by
      obtain ⟨h₁, h₂, h₃⟩ := hl x (mem_cons_of_mem _ hx)
      have hxi : x ≠ i := by rintro rfl; exact hi hx
      refine ⟨by rw [ht]; exact h₁, by rw [ht]; simpa using h₂, ?_⟩
      rw [lockRefOf, ht, dataOf_modifyData_ne hxi]
      exact h₃) delta₁
    rw [foldl_cons, hs]
    exact ⟨hb', .cons hi ht hr⟩

end Lock

/-! ### A new leaf -/

section Leaf

variable {k : RadixKey} {d : ChildKey} {v : List Slot} {p : NodeId}

theorem Books.addLeaf (h : Books c s ∅) (hk : LeafOk c.ops s.tree p d k) (hv : v.length = k.len)
    (ht : s'.tree = s.tree.addLeaf p d k ⟨some v, 0⟩)
    (he : s'.evictableSize = s.evictableSize + k.len) (hp : s'.protectedSize = s.protectedSize)
    (hl : s'.evictableLeaves = s.evictableLeaves) : Books c s' ({p} ∪ {s.tree.counter}) := by
  have hpm := h.wf.ne_counter hk.live
  have hdata : ∀ j, s'.tree.dataOf j =
      if j = s.tree.counter then some ⟨some v, 0⟩ else s.tree.dataOf j := fun j => by
    rw [ht, dataOf_addLeaf hpm]
  have hkey : ∀ j, s'.tree.keyOf j =
      if j = s.tree.counter then some k else s.tree.keyOf j := fun j => by
    rw [ht, keyOf_addLeaf hpm]
  have hroot : s'.tree.root = s.tree.root := by rw [ht]; rfl
  refine ⟨ht ▸ h.wf.addLeaf hk, ?_, ?_, ?_, ?_, ?_, ?_⟩
  · rw [hroot, hdata, if_neg h.wf.root_ne_counter, h.root_data]
  · intro j k' a' hj hk' ha'
    rw [hkey] at hk'
    rw [hdata] at ha'
    split_ifs at hk' ha' with e
    · cases hk'; cases ha'; exact ⟨v, rfl, hv⟩
    · exact h.value (hroot ▸ hj) hk' ha'
  · intro j a' ha'
    rw [hdata] at ha'
    split_ifs at ha' with e
    · cases ha'; exact le_rfl
    · exact h.lock_nonneg ha'
  · rw [he, h.evictable, ht, h.wf.total_addLeaf hk]
    simp [evictableWeight]
  · rw [hp, h.protect, ht, h.wf.total_addLeaf hk]
    simp [protectedWeight]
  · intro j hj
    rw [Set.mem_union, Set.mem_singleton_iff, Set.mem_singleton_iff, not_or] at hj
    have hlock : s'.lockRefOf j = s.lockRefOf j := by
      rw [lockRefOf, lockRefOf, hdata, if_neg hj.2]
    have hchild : (∀ x, s'.tree.parentOf x ≠ some j) ↔ ∀ x, s.tree.parentOf x ≠ some j := by
      simp only [ht, parentOf_addLeaf hpm]
      constructor
      · intro hno x hx
        have hxm := h.wf.ne_counter (live_of_parentOf hx)
        exact hno x (by rw [if_neg hxm, hx])
      · intro hno x hx
        split_ifs at hx
        · exact hj.1 (some.inj hx).symm
        · exact hno x hx
    have e : s'.EvictableLeaf j ↔ s.EvictableLeaf j := by
      simp only [EvictableLeaf, hlock, hroot, hchild]
      rw [ht, live_addLeaf hpm]
      simp only [hj.2, false_or]
    rw [hl, e]
    exact h.leaves (Set.notMem_empty _)

theorem Books.insertLeaf (h : Books c s ∅) {w : InsertWalk}
    (hk : LeafOk c.ops s.tree w.node w.childKey w.key) (hv : w.value.length = w.key.len)
    (now priority : Int) (chunked : Bool) : Books c (s.insertLeaf w now priority chunked) ∅ := by
  have hpm := h.wf.ne_counter hk.live
  have hcount : ∀ (s : RadixCache) (i : NodeId) (b : Bool), (s.incHitCount i b).tree = s.tree ∧
      (s.incHitCount i b).evictableSize = s.evictableSize ∧
      (s.incHitCount i b).protectedSize = s.protectedSize ∧
      (s.incHitCount i b).evictableLeaves = s.evictableLeaves := by
    intro s i b; cases b <;> exact ⟨rfl, rfl, rfl, rfl⟩
  simp only [RadixCache.insertLeaf]
  generalize hs₁ : (RadixCache.mk _ _ _ _ _).incHitCount _ _ = s₁
  obtain ⟨e₁, e₂, e₃, e₄⟩ := hcount { s with
    tree := s.tree.addLeaf w.node w.childKey w.key ⟨some w.value, 0⟩
    nodeMeta := Function.update s.nodeMeta s.tree.counter ⟨now, now, 0, priority⟩ } s.tree.counter
    chunked
  rw [hs₁] at e₁ e₂ e₃ e₄
  have hb : Books c { s₁ with evictableSize := s₁.evictableSize + w.key.len }
      ({w.node} ∪ {s.tree.counter}) := h.addLeaf hk hv e₁ (by simp only [e₂]) e₃ e₄
  have hlive : ∀ j, s₁.tree.Live j ↔ j = s.tree.counter ∨ s.tree.Live j := fun j => by
    rw [e₁, live_addLeaf hpm]
  refine ((hb.updateLeafStatus (i := w.node) ?_).updateLeafStatus (i := s.tree.counter) ?_).mono ?_
  · exact (hlive _).mpr (.inr hk.live)
  · rw [tree_updateLeafStatus]; exact (hlive _).mpr (.inl rfl)
  · rintro x ⟨⟨hx | hx, h₁⟩, h₂⟩
    · exact absurd hx h₁
    · exact absurd hx h₂

theorem tree_insertLeaf (s : RadixCache) (w : InsertWalk) (now priority : Int) (chunked : Bool) :
    (s.insertLeaf w now priority chunked).tree =
      s.tree.addLeaf w.node w.childKey w.key ⟨some w.value, 0⟩ := by
  simp only [RadixCache.insertLeaf, tree_updateLeafStatus]
  cases chunked <;> rfl

/-! ### Removing a leaf -/

theorem EvictableLeaf.removeOk (h : s.tree.WF c.ops) (hi : s.EvictableLeaf i) :
    ∃ k d, s.tree.keyOf i = some k ∧ k.childKey c.pageSize = some d ∧
      RemoveOk c.ops s.tree i d := by
  obtain ⟨hr, hl, hc, -⟩ := hi
  obtain ⟨k, d, hk, hd⟩ := h.label hl hr
  exact ⟨k, d, hk, hd, hr, hl, by rw [hk]; exact hd, hc⟩

/-- What a removal leaves of the evictable leaves, apart from the parent. -/
theorem evictableLeaf_removeLeaf (h : s.tree.WF c.ops) (hp : s.tree.parentOf i = some p)
    (ht : s'.tree = s.tree.removeLeaf i d) (hj : j ≠ p) :
    s'.EvictableLeaf j ↔ j ≠ i ∧ s.EvictableLeaf j := by
  have b := h.below_of_parentOf hp
  by_cases hji : j = i
  · simp [EvictableLeaf, ht, b.live_removeLeaf, hji]
  have hchild : (∀ x, s'.tree.parentOf x ≠ some j) ↔ ∀ x, s.tree.parentOf x ≠ some j := by
    simp only [ht, b.parentOf_removeLeaf]
    constructor
    · intro hno x hx
      by_cases hxi : x = i
      · exact hj (some.inj (hx.symm.trans (hxi ▸ hp)))
      · exact hno x (by rw [if_neg hxi, hx])
    · intro hno x hx
      split_ifs at hx
      exact hno x hx
  simp only [EvictableLeaf, hchild, lockRefOf]
  simp only [ht, root_removeLeaf, b.dataOf_removeLeaf, hji, if_false, b.live_removeLeaf, ne_eq,
    not_false_eq_true, true_and]

/-- **`_delete_leaf` succeeds on an evictable leaf and keeps the books.** -/
theorem Books.deleteLeaf (h : Books c s ∅) (hi : s.EvictableLeaf i) :
    ∃ s' d, s.deleteLeaf c i = some s' ∧ Books c s' ∅ ∧ RemoveOk c.ops s.tree i d ∧
      s'.tree = s.tree.removeLeaf i d := by
  obtain ⟨k, d, hk, hd, ok⟩ := hi.removeOk h.wf
  obtain ⟨p, b⟩ := h.wf.below ok.live ok.ne_root
  obtain ⟨a, ha⟩ := ok.live.data
  have hlock : a.lockRef = 0 := by rw [← lockRefOf_eq ha]; exact hi.2.2.2
  have hchild : s.tree.child p d = some i := h.wf.child_iff.mpr ⟨b.parent, ok.label⟩
  have hb : Books c { s with
      tree := s.tree.removeLeaf i d
      evictableSize := s.evictableSize - k.len
      evictableLeaves := s.evictableLeaves.erase i } {p} := by
    have hdata : ∀ j, (s.tree.removeLeaf i d).dataOf j =
        if j = i then none else s.tree.dataOf j := fun j => b.dataOf_removeLeaf
    refine ⟨h.wf.removeLeaf ok, ?_, ?_, ?_, ?_, ?_, ?_⟩
    · simp only [root_removeLeaf, hdata, if_neg ok.ne_root.symm, h.root_data]
    · intro j k' a' hj hk' ha'
      simp only [root_removeLeaf, hdata, b.keyOf_removeLeaf] at hj hk' ha'
      split_ifs at hk' ha'
      exact h.value hj hk' ha'
    · intro j a' ha'
      simp only [hdata] at ha'
      split_ifs at ha'
      exact h.lock_nonneg ha'
    · simp only [h.evictable, h.wf.total_removeLeaf ok hk ha, evictableWeight, hlock, if_true]
    · simp [h.protect, h.wf.total_removeLeaf ok hk ha, protectedWeight, hlock]
    · intro j hj
      simp only [Finset.mem_erase, h.leaves (Set.notMem_empty j)]
      exact (evictableLeaf_removeLeaf h.wf b.parent rfl hj).symm
  have hp : (s.tree.removeLeaf i d).Live p := b.live_removeLeaf.mpr ⟨b.ne.symm, b.live⟩
  refine ⟨_, d, ?_, (hb.updateLeafStatus (i := p) hp).mono (by simp), ok, ?_⟩
  · simp only [RadixCache.deleteLeaf, hk, hd, b.parent, hchild, bind_eq_bind,
      bind_some, if_true]
    rfl
  · rw [tree_updateLeafStatus]

end Leaf

end SglangRuntime.RadixCache
