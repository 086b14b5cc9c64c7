import SglangRuntime.MemCache.KeyWalk
import SglangRuntime.MemCache.RadixCache.Invariant

/-!
# Memory cache — the walks of `RadixCache`

What the loops of `_match_prefix_helper` and `_insert_helper` do, from any node of a tree whose
books are in order.  Both follow the dictionaries down while the segments match, split the last
segment where it parts from the key, and stop; both terminate, raise nothing, and reshape the tree
by one split at most.

* `matchLoop_spec`: the slots collected are those of the longest cached continuation.
* `insertLoop_spec`: the walk stops at the end of the longest cached continuation, and its
  dictionary has no entry for what is left of the key.
-/

namespace SglangRuntime.RadixCache

open Foundation Foundation.Trie List Option RadixKey
open RadixKey (LongestAlong Found found)

variable {c : CacheInitParams} {s s' : RadixCache} {i j : NodeId} {s₁ : RadixCache} {w : InsertWalk}

/-- The slots of a node, one for each unit of its segment. -/
def slotsOf (a : TreeNodeData) : List Slot := a.value.getD []

/-- The page of slots the tree holds at the place `us`. -/
def Holds (c : CacheInitParams) (s : RadixCache) (us : List (Namespace × LogicalUnit))
    (pg : List Slot) : Prop :=
  s.tree.HoldsPage c.ops slotsOf us pg

/-- `vals` are the slots of the longest cached continuation of `w` along `r`. -/
def Answers (c : CacheInitParams) (s : RadixCache) (w r : List (Namespace × LogicalUnit))
    (vals : List Slot) : Prop :=
  LongestAlong c.pageSize_pos s.tree w r vals.length ∧
    ∀ n, 0 < n → c.pageSize ∣ n → n ≤ vals.length →
      Holds c s (w ++ r.take n) (slice vals (n - c.pageSize) n)

/-! ### Touching and splitting -/

@[simp] theorem tree_touch (s : RadixCache) (i : NodeId) (now : Int) :
    (s.touch i now).tree = s.tree := rfl

theorem reshaped_updateMeta (s : RadixCache) (i : NodeId) (f : NodeMeta → NodeMeta) :
    Reshaped c s (s.updateMeta i f) :=
  ⟨rfl, rfl, rfl, .inl rfl⟩

theorem reshaped_incHitCount (s : RadixCache) (i : NodeId) (chunked : Bool) :
    Reshaped c s (s.incHitCount i chunked) := by
  cases chunked with
  | true => exact .refl c s
  | false => exact ⟨rfl, rfl, rfl, .inl rfl⟩

/-- Reshaping after a change that left the tree alone. -/
theorem Reshaped.of_tree_eq (h : Reshaped c s s₁) (ht : s₁.tree = s.tree)
    (h' : Reshaped c s₁ s') : Reshaped c s s' := by
  obtain ⟨he, hp, hl, -⟩ := h
  obtain ⟨he', hp', hl', h'⟩ := h'
  rw [ht] at h'
  exact ⟨he'.trans he, hp'.trans hp, hl'.trans hl, h'⟩

/-- Reshaping before a change that leaves the tree alone. -/
theorem Reshaped.tree_eq (h : Reshaped c s s₁) (h' : Reshaped c s₁ s')
    (ht : s'.tree = s₁.tree) : Reshaped c s s' := by
  obtain ⟨he, hp, hl, h⟩ := h
  obtain ⟨he', hp', hl', -⟩ := h'
  rw [← ht] at h
  exact ⟨he'.trans he, hp'.trans hp, hl'.trans hl, h⟩

section Split

variable {k : RadixKey} {d : ChildKey} {m : Nat}

/-- **`_split_node`**, at a page boundary inside the segment. -/
theorem splitNode_spec (h : s.tree.WF c.ops) (hr : i ≠ s.tree.root) (hk : s.tree.keyOf i = some k)
    (hd : k.childKey c.pageSize = some d) (hpos : 0 < m) (hdvd : c.pageSize ∣ m) (hlt : m < k.len)
    (now : Int) : ∃ s' dRest, s.splitNode c k i m now = some (s', s.tree.counter) ∧
      SplitOk c.ops s.tree i d dRest m k ∧ s'.tree = splitTree c s.tree i d dRest m ∧
      Reshaped c s s' := by
  have hrest : c.pageSize ≤ (k.sliceFrom m).len := by
    have hle : m + c.pageSize ≤ k.len :=
      not_lt.mp fun hl => absurd (Nat.le_of_lt_add_of_dvd hl (by simpa using (h.paged hr hk).2) hdvd)
        (not_le.mpr hlt)
    rw [len_sliceFrom]
    omega
  obtain ⟨dRest, hdRest⟩ := isSome_iff_exists.mp
    ((k.sliceFrom m).childKey_isSome c.pageSize_pos hrest)
  have ok : SplitOk c.ops s.tree i d dRest m k :=
    ⟨hk, hr, hpos, by simpa using hlt, hdvd, hd, hdRest⟩
  have e : s.splitNode c k i m now = some ({ s with
      tree := splitTree c s.tree i d dRest m
      nodeMeta := Function.update s.nodeMeta s.tree.counter
        ⟨now, now, (s.nodeMeta i).hitCount, (s.nodeMeta i).priority⟩ }, s.tree.counter) := by
    simp only [splitNode, hdRest, hd, bind_eq_bind, bind_some]
    rfl
  exact ⟨_, dRest, e, ok, rfl, rfl, rfl, rfl, .inr ⟨i, d, dRest, m, k, ok, rfl⟩⟩

/-- `_split_node` at the place where the segment found parts from the key. -/
theorem splitNode_found {q : NodeId} {r : RadixKey} (h : s.tree.WF c.ops)
    (hf : Found c.pageSize_pos s.tree q i r k d m) (hlt : m < k.len) (now : Int) :
    ∃ s' dRest, s.splitNode c k i m now = some (s', s.tree.counter) ∧
      SplitOk c.ops s.tree i d dRest m k ∧ s'.tree = splitTree c s.tree i d dRest m ∧
      Reshaped c s s' :=
  splitNode_spec h (h.ne_root_of_parentOf hf.parent) hf.key hf.label
    (c.pageSize_pos.trans_le hf.page_le) hf.page_dvd hlt now

end Split

theorem nextChildKey_spec {key : RadixKey} (hdvd : c.pageSize ∣ key.len) (ck : ChildKey) :
    ∃ ck', nextChildKey c key ck = some ck' ∧
      (0 < key.len → key.childKey c.pageSize = some ck') := by
  by_cases hpos : key.len > 0
  · obtain ⟨ck', hck'⟩ := isSome_iff_exists.mp
      (key.childKey_isSome c.pageSize_pos (Nat.le_of_dvd hpos hdvd))
    exact ⟨ck', by rw [nextChildKey, if_pos hpos, hck'], fun _ => hck'⟩
  · exact ⟨ck, by rw [nextChildKey, if_neg hpos], fun h => absurd h hpos⟩

/-! ### `_match_prefix_helper` -/

theorem Answers.nil {w r : List (Namespace × LogicalUnit)}
    (h : LongestAlong c.pageSize_pos s.tree w r 0) : Answers c s w r [] :=
  ⟨h, fun n hn _ hle => absurd hn (by simpa using hle)⟩

section Match

variable {q : NodeId} {r k : RadixKey} {d : ChildKey} {m : Nat} {v : List Slot} {a : TreeNodeData}

theorem found_holds (hf : Found c.pageSize_pos s.tree q i r k d m) (ha : s.tree.dataOf i = some a)
    (hv : a.value = some v) {n : Nat} (hn : 0 < n) (hd : c.pageSize ∣ n) (hle : n ≤ m) :
    Holds c s (s.tree.spellTo c.ops q ++ r.units.take n) (slice v (n - c.pageSize) n) :=
  ⟨i, n, a, hf.at hn hd hle, ha, by rw [slotsOf, hv]; rfl⟩

/-- The answer where the segment parts from the key. -/
theorem found_answers_take (h : s.tree.WF c.ops) (hf : Found c.pageSize_pos s.tree q i r k d m)
    (hd : r.childKey c.pageSize = some d) (hlt : m < k.len) (ha : s.tree.dataOf i = some a)
    (hv : a.value = some v) (hlen : v.length = k.len) :
    Answers c s (s.tree.spellTo c.ops q) r.units (v.take m) := by
  have e : (v.take m).length = m := by rw [length_take, hlen, min_eq_left hlt.le]
  refine ⟨by rw [e]; exact hf.longest h hlt hd, fun n hn hdn hle => ?_⟩
  rw [e] at hle
  rw [slice_take _ hle]
  exact found_holds hf ha hv hn hdn hle

/-- The answer below a segment that matches entirely. -/
theorem found_answers_append (h : s.tree.WF c.ops) (hf : Found c.pageSize_pos s.tree q i r k d m)
    (heq : m = k.len) (ha : s.tree.dataOf i = some a) (hv : a.value = some v)
    (hlen : v.length = k.len) {vals : List Slot}
    (hvals : Answers c s (s.tree.spellTo c.ops i) (r.units.drop m) vals) :
    Answers c s (s.tree.spellTo c.ops q) r.units (v ++ vals) := by
  obtain ⟨hlong, hpages⟩ := hvals
  have hvm : v.length = m := hlen.trans heq.symm
  refine ⟨by rw [length_append, hvm]; exact hf.extend h heq hlong, fun n hn hdn hle => ?_⟩
  rw [length_append, hvm] at hle
  rcases le_or_gt n m with hnm | hnm
  · rw [slice_append_left _ _ (by rw [hvm]; exact hnm)]
    exact found_holds hf ha hv hn hdn hnm
  have hpage : m + c.pageSize ≤ n :=
    not_lt.mp fun hl => absurd (Nat.le_of_lt_add_of_dvd hl hdn hf.page_dvd) (not_le.mpr hnm)
  have e : s.tree.spellTo c.ops q ++ r.units.take n =
      s.tree.spellTo c.ops i ++ (r.units.drop m).take (n - m) := by
    rw [hf.spellTo_eq h heq, append_assoc, ← take_add, Nat.add_sub_cancel' hnm.le]
  rw [e, slice_append_right _ _ (by rw [hvm]; omega), hvm, Nat.sub_right_comm]
  exact hpages (n - m) (by omega) (Nat.dvd_sub hdn hf.page_dvd) (by omega)

/-- **The lookup loop.**  From a live node it terminates without error, returns the slots of the
longest cached continuation, and ends at the node where that continuation ends. -/
theorem matchLoop_spec (now : Int) {fuel : Nat} {node : NodeId} {key : RadixKey} {ck : ChildKey}
    (acc : List Slot) (h : Books c s ∅) (hq : s.tree.Live node) (hfuel : key.len < fuel)
    (hdvd : c.pageSize ∣ key.len) (hck : 0 < key.len → key.childKey c.pageSize = some ck) :
    ∃ s' vals node', matchLoop c now fuel s node key ck acc = some (s', acc ++ vals, node') ∧
      Reshaped c s s' ∧ Answers c s (s.tree.spellTo c.ops node) key.units vals ∧
      s'.tree.Live node' ∧ s'.tree.spellTo c.ops node' =
        s.tree.spellTo c.ops node ++ key.units.take vals.length := by
  induction fuel generalizing s node key ck acc with
  | zero => omega
  | succ fuel ih =>
    have stop : (0 < key.len → s.tree.child node ck = none) →
        ∃ s' vals node', some (s, acc, node) = some (s', acc ++ vals, node') ∧
          Reshaped c s s' ∧ Answers c s (s.tree.spellTo c.ops node) key.units vals ∧
          s'.tree.Live node' ∧ s'.tree.spellTo c.ops node' =
            s.tree.spellTo c.ops node ++ key.units.take vals.length := by
      intro hno
      refine ⟨s, [], node, by simp, .refl c s, .nil (.zero h.wf hq fun hpos => ?_), hq, by simp⟩
      exact ⟨Nat.le_of_dvd hpos hdvd, ck, hck hpos, hno hpos⟩
    simp only [matchLoop]
    by_cases hpos : key.len > 0
    swap
    · rw [if_neg hpos]
      exact stop fun hp => absurd hp hpos
    rw [if_pos hpos]
    have hpage : c.pageSize ≤ key.len := Nat.le_of_dvd hpos hdvd
    rcases hc : s.tree.child node ck with - | child
    · exact stop fun _ => hc
    obtain ⟨k, m, hf⟩ := found c.pageSize_pos h.wf hpage (hck hpos) hc
    have hir := h.wf.ne_root_of_parentOf hf.parent
    obtain ⟨a, ha⟩ := (live_of_parentOf hf.parent).data
    obtain ⟨v, hv, hlen⟩ := h.value hir hf.key ha
    simp only [tree_touch, hf.key, bind_eq_bind, bind_some, hf.matchLen]
    by_cases hlt : m < k.len
    · -- the segment parts from the key: split and stop
      rw [if_pos hlt]
      obtain ⟨s₂, dRest, hs₂, ok, ht, hr⟩ :=
        splitNode_found (s := s.touch child now) h.wf hf hlt now
      have b := h.wf.below_of_parentOf hf.parent
      have hval : s₂.valueOf s.tree.counter = some (v.take m) := by
        rw [valueOf, ht, splitTree, tree_touch, b.dataOf_split, if_pos rfl, ha]
        simp [TreeNodeData.sliceTo, hv]
      rw [hs₂]
      simp only [bind_some, tree_touch, hval]
      refine ⟨s₂, v.take m, s.tree.counter, rfl, ?_, found_answers_take h.wf hf (hck hpos) hlt ha hv hlen,
        ?_, ?_⟩
      · exact (reshaped_updateMeta s child _).of_tree_eq rfl hr
      · rw [ht, splitTree, tree_touch, b.live_split]; exact .inl rfl
      · rw [ht, splitTree, tree_touch, h.wf.spellTo_split_new ok hf.parent, length_take, hlen,
          min_eq_left hlt.le, ← hf.agree, ops_units]
    · -- the whole segment matches: go on below it
      have heq : m = k.len := le_antisymm hf.le_key (not_lt.mp hlt)
      have hval : (s.touch child now).valueOf child = some v := by
        rw [valueOf, tree_touch, ha]; exact hv
      have hlen' : (key.sliceFrom m).len = key.len - m := key.len_sliceFrom m
      have hm := hf.page_le
      have hp := c.pageSize_pos
      have hdvd' : c.pageSize ∣ (key.sliceFrom m).len := hlen' ▸ Nat.dvd_sub hdvd hf.page_dvd
      obtain ⟨ck', hnext, hck'⟩ := nextChildKey_spec hdvd' ck
      have hb : Books c (s.touch child now) ∅ := h.congr rfl rfl rfl rfl
      obtain ⟨s₂, vals, node', hres, hr, hans, hlive, hspell⟩ := ih (acc ++ v) hb
        (live_of_parentOf hf.parent) (by omega) hdvd' hck'
      rw [if_neg hlt, hval]
      simp only [bind_some, hnext, hres]
      rw [units_sliceFrom] at hans hspell
      refine ⟨s₂, v ++ vals, node', by rw [append_assoc],
        (reshaped_updateMeta s child _).of_tree_eq rfl hr,
        found_answers_append h.wf hf heq ha hv hlen hans, hlive, ?_⟩
      rw [hspell, tree_touch, hf.spellTo_eq h.wf heq, append_assoc, length_append,
        hlen, ← heq, ← take_add]

end Match

/-! ### `_insert_helper` -/

/-- What the insertion walk has done when it stops, `m` units further down: it stands where the
longest cached continuation ends, and the dictionary there has no entry for the rest of the key. -/
structure WalkEnd (c : CacheInitParams) (s s' : RadixCache) (w w' : InsertWalk) (m : Nat) :
    Prop where
  reshaped : Reshaped c s s'
  live : s'.tree.Live w'.node
  longest : LongestAlong c.pageSize_pos s.tree (s.tree.spellTo c.ops w.node) w.key.units m
  total : w'.totalPrefixLength = w.totalPrefixLength + m
  units : w'.key.units = w.key.units.drop m
  value : w'.value = w.value.drop m
  spell : s'.tree.spellTo c.ops w'.node = s.tree.spellTo c.ops w.node ++ w.key.units.take m
  stuck : 0 < w'.key.len →
    w'.key.childKey c.pageSize = some w'.childKey ∧ s'.tree.child w'.node w'.childKey = none

theorem WalkEnd.here (h : Books c s ∅) (hq : s.tree.Live w.node) (hdvd : c.pageSize ∣ w.key.len)
    (hno : 0 < w.key.len →
      w.key.childKey c.pageSize = some w.childKey ∧ s.tree.child w.node w.childKey = none) :
    WalkEnd c s s w w 0 where
  reshaped := .refl c s
  live := hq
  longest := .zero h.wf hq fun hpos =>
    ⟨Nat.le_of_dvd hpos hdvd, w.childKey, (hno hpos).1, (hno hpos).2⟩
  total := rfl
  units := by simp
  value := by simp
  spell := by simp
  stuck := hno

theorem insertLoop_stop (now priority : Int) (chunked : Bool) (fuel : Nat)
    (hno : 0 < w.key.len → s.tree.child w.node w.childKey = none) :
    insertLoop c now priority chunked (fuel + 1) s w = some (s, w) := by
  simp only [insertLoop]
  split_ifs with hpos
  · rw [hno hpos]
  · rfl

theorem tree_visit (s : RadixCache) (node : NodeId) (priority : Int) (chunked : Bool) :
    ((s.raisePriority node priority).incHitCount node chunked).tree = s.tree := by
  cases chunked <;> rfl

theorem reshaped_visit (s : RadixCache) (node : NodeId) (priority : Int) (chunked : Bool) :
    Reshaped c s ((s.raisePriority node priority).incHitCount node chunked) :=
  (reshaped_updateMeta s node _).of_tree_eq rfl (reshaped_incHitCount _ node chunked)

/-- **The insertion loop.**  From a live node it terminates without error, where the longest cached
continuation of the key ends. -/
theorem insertLoop_spec (now priority : Int) (chunked : Bool) {fuel : Nat}
    (h : Books c s ∅) (hq : s.tree.Live w.node) (hfuel : w.key.len < fuel)
    (hdvd : c.pageSize ∣ w.key.len)
    (hck : 0 < w.key.len → w.key.childKey c.pageSize = some w.childKey) :
    ∃ s' w' m, insertLoop c now priority chunked fuel s w = some (s', w') ∧
      WalkEnd c s s' w w' m := by
  induction fuel generalizing s w with
  | zero => omega
  | succ fuel ih =>
    by_cases hno : 0 < w.key.len → s.tree.child w.node w.childKey = none
    · exact ⟨s, w, 0, insertLoop_stop now priority chunked fuel hno,
        .here h hq hdvd fun hpos => ⟨hck hpos, hno hpos⟩⟩
    rw [Classical.not_imp] at hno
    obtain ⟨hpos, hc⟩ := hno
    obtain ⟨child, hc⟩ := ne_none_iff_exists'.mp hc
    have hpage : c.pageSize ≤ w.key.len := Nat.le_of_dvd hpos hdvd
    obtain ⟨k, m, hf⟩ := found c.pageSize_pos h.wf hpage (hck hpos) hc
    have hm := hf.page_le
    have hp := c.pageSize_pos
    have hlen' : (w.key.sliceFrom m).len = w.key.len - m := w.key.len_sliceFrom m
    have hdvd' : c.pageSize ∣ (w.key.sliceFrom m).len := hlen' ▸ Nat.dvd_sub hdvd hf.page_dvd
    obtain ⟨ck', hnext, hck'⟩ := nextChildKey_spec hdvd' w.childKey
    simp only [insertLoop, if_pos hpos, hc, tree_touch, hf.key, bind_eq_bind,
      bind_some, hf.matchLen, splitIfPartial]
    by_cases hlt : m < k.len
    · -- the segment parts from the key: after the split the dictionary has no entry to follow
      obtain ⟨s₂, dRest, hs₂, ok, ht, hr⟩ :=
        splitNode_found (s := s.touch child now) h.wf hf hlt now
      have b := h.wf.below_of_parentOf hf.parent
      obtain ⟨fuel, rfl⟩ : ∃ f, fuel = f + 1 := ⟨fuel - 1, by omega⟩
      rw [if_pos hlt, hs₂]
      simp only [bind_some, hnext]
      have hstuck : 0 < (w.key.sliceFrom m).len →
          s₂.tree.child s.tree.counter ck' = none := by
        intro hpos'
        rw [ht, splitTree, tree_touch, b.child_split, if_pos rfl, if_neg]
        rintro rfl
        have hle := Nat.le_of_dvd hpos' hdvd'
        exact hf.rest_ne h.wf hlt (by omega) (ok.label_rest.trans (hck' hpos').symm)
      rw [insertLoop_stop]
      rotate_left
      · simp only [tree_visit]
        exact hstuck
      refine ⟨_, _, m, rfl, ?_⟩
      refine ⟨?_, ?_, hf.longest h.wf hlt (hck hpos), rfl, w.key.units_sliceFrom m, rfl, ?_, ?_⟩
      · exact ((reshaped_updateMeta s child _).of_tree_eq rfl hr).tree_eq
          (reshaped_visit _ _ _ _) (tree_visit _ _ _ _)
      · simp only [tree_visit]
        rw [ht, splitTree, tree_touch, b.live_split]
        exact .inl rfl
      · simp only [tree_visit]
        rw [ht, splitTree, tree_touch, h.wf.spellTo_split_new ok hf.parent, ops_units,
          hf.agree]
      · simp only [tree_visit]
        exact fun hpos' => ⟨hck' hpos', hstuck hpos'⟩
    · -- the whole segment matches: go on below it
      have heq : m = k.len := le_antisymm hf.le_key (not_lt.mp hlt)
      rw [if_neg hlt]
      simp only [bind_some, hnext]
      have hb : Books c (((s.touch child now).raisePriority child priority).incHitCount child
          chunked) ∅ :=
        (h.reshape (reshaped_updateMeta s child _)).reshape (reshaped_visit _ _ _ _)
      have htree : (((s.touch child now).raisePriority child priority).incHitCount child
          chunked).tree = s.tree := tree_visit _ _ _ _
      obtain ⟨s₂, w₂, t, hres, hend⟩ := ih (w := ⟨child, w.key.sliceFrom m, ck', w.value.drop m,
        w.totalPrefixLength + m⟩) hb (by rw [htree]; exact live_of_parentOf hf.parent)
        (by simp only; omega) hdvd' hck'
      refine ⟨s₂, w₂, m + t, hres, ?_⟩
      obtain ⟨hr, hlive, hlong, htot, hunits, hval, hspell, hstuck⟩ := hend
      simp only [htree] at hlong hspell
      rw [units_sliceFrom] at hlong hunits hspell
      refine ⟨?_, hlive, hf.extend h.wf heq hlong, ?_, ?_, ?_, ?_, hstuck⟩
      · exact ((reshaped_updateMeta s child _).of_tree_eq rfl
          (reshaped_visit _ _ priority chunked)).of_tree_eq htree hr
      · exact htot.trans (Nat.add_assoc _ _ _)
      · rw [hunits, drop_drop]
      · rw [hval, drop_drop]
      · rw [hspell, hf.spellTo_eq h.wf heq, append_assoc, ← take_add]

/-! ### The operations -/

theorem dvd_len_viewKey (c : CacheInitParams) (key : RadixKey) :
    c.pageSize ∣ (c.viewKey key).len := by
  rw [CacheInitParams.viewKey, len_pageAligned _ c.pageSize_pos]
  exact dvd_mul_left _ _

theorem len_viewKey_le (c : CacheInitParams) (key : RadixKey) :
    (c.viewKey key).len ≤ (key.maybeToBigramView c.isEagle).len := by
  rw [CacheInitParams.viewKey, len_pageAligned _ c.pageSize_pos]
  exact Nat.div_mul_le_self _ _

/-- **`match_prefix`** returns, without error, the slots of the longest cached prefix of the key, and
the node where that prefix ends. -/
theorem matchPrefix_spec_node (h : Books c s ∅) (hdis : c.disable = false) (key : RadixKey)
    (now : Int) : ∃ s' vals node, s.matchPrefix c key now = some (s', vals, node) ∧
      Reshaped c s s' ∧ Answers c s [] (c.viewKey key).units vals ∧ s'.tree.Live node ∧
      s'.tree.spellTo c.ops node = (c.viewKey key).units.take vals.length := by
  have hroot : s.tree.spellTo c.ops s.tree.root = [] := h.wf.spellTo_root
  have none : (c.viewKey key).len = 0 → ∃ s' vals node,
      some (s, ([] : List Slot), s.tree.root) = some (s', vals, node) ∧ Reshaped c s s' ∧
        Answers c s [] (c.viewKey key).units vals ∧ s'.tree.Live node ∧
        s'.tree.spellTo c.ops node = (c.viewKey key).units.take vals.length := by
    intro h0
    refine ⟨s, [], s.tree.root, rfl, .refl c s, .nil ?_, h.wf.root_live, hroot⟩
    rw [← hroot]
    exact .zero h.wf h.wf.root_live fun hpos => by omega
  simp only [matchPrefix, hdis, Bool.false_or]
  by_cases h0 : (key.maybeToBigramView c.isEagle).len = 0
  · rw [if_pos (by simpa using h0)]
    exact none (Nat.le_zero.mp (h0 ▸ len_viewKey_le c key))
  rw [if_neg (by simpa using h0)]
  by_cases h1 : (c.viewKey key).len = 0
  · rw [if_pos (by simpa [CacheInitParams.viewKey] using h1)]
    exact none h1
  rw [if_neg (by simpa [CacheInitParams.viewKey] using h1)]
  have hpos : 0 < (c.viewKey key).len := Nat.pos_of_ne_zero h1
  have hdvd := dvd_len_viewKey c key
  obtain ⟨ck, hck⟩ := isSome_iff_exists.mp
    ((c.viewKey key).childKey_isSome c.pageSize_pos (Nat.le_of_dvd hpos hdvd))
  have hb : Books c (s.touch s.tree.root now) ∅ := h.congr rfl rfl rfl rfl
  obtain ⟨s', vals, node, hres, hr, hans, hlive, hspell⟩ := matchLoop_spec now [] hb h.wf.root_live
    (Nat.lt_succ_self _) hdvd fun _ => hck
  simp only [tree_touch, hroot, nil_append] at hans hspell
  refine ⟨s', vals, node, ?_, (reshaped_updateMeta s _ _).of_tree_eq rfl hr, hans, hlive, hspell⟩
  change matchPrefixHelper c s s.tree.root (c.viewKey key) now = _
  simp only [matchPrefixHelper, hck, bind_eq_bind, bind_some, hres, nil_append]

theorem matchPrefix_spec (h : Books c s ∅) (hdis : c.disable = false) (key : RadixKey) (now : Int) :
    ∃ s' vals node, s.matchPrefix c key now = some (s', vals, node) ∧ Reshaped c s s' ∧
      Answers c s [] (c.viewKey key).units vals := by
  obtain ⟨s', vals, node, e, hr, hans, -⟩ := matchPrefix_spec_node h hdis key now
  exact ⟨s', vals, node, e, hr, hans⟩

/-- The slots an insertion supplies, one for each unit of the key as read. -/
def insertValue (c : CacheInitParams) (params : InsertParams c) : List Slot :=
  match params.value with
  | some v => v.take (c.viewKey params.key).len
  | none => (c.viewKey params.key).tokenIds.take (c.viewKey params.key).len

theorem length_insertValue (params : InsertParams c) :
    (insertValue c params).length = (c.viewKey params.key).len := by
  rcases hv : params.value with - | v
  · have hraw := (c.viewKey params.key).rawLen_le
    have hlen : (c.viewKey params.key).len ≤ (c.viewKey params.key).rawLen := by
      rw [len]; split_ifs <;> omega
    simp only [insertValue, hv, length_take]
    omega
  · have := params.value_long v hv
    have := len_viewKey_le c params.key
    simp only [insertValue, hv, length_take]
    omega

/-- What `insert` does, with `m` the length of the longest cached prefix of the key: it reshapes
the tree and, if `m` does not cover the key, hangs a leaf with the rest below the node where the
cached prefix ends. -/
structure Inserted (c : CacheInitParams) (s s' : RadixCache) (r : RadixKey) (value : List Slot)
    (m : Nat) : Prop where
  longest : LongestAlong c.pageSize_pos s.tree [] r.units m
  outcome : (m = r.len ∧ Reshaped c s s') ∨ ∃ s₁ w now priority chunked, m < r.len ∧
    Reshaped c s s₁ ∧ LeafOk c.ops s₁.tree w.node w.childKey w.key ∧
    w.key.units = r.units.drop m ∧ w.value = value.drop m ∧ w.value.length = w.key.len ∧
    s₁.tree.spellTo c.ops w.node = r.units.take m ∧ s' = s₁.insertLeaf w now priority chunked

/-- **`insert`** returns, without error, the length of the longest cached prefix of the key. -/
theorem insert_spec (h : Books c s ∅) (hdis : c.disable = false) (params : InsertParams c)
    (now : Int) : ∃ s' m node, s.insert c params now = some (s', m, node) ∧
      Inserted c s s' (c.viewKey params.key) (insertValue c params) m := by
  have hroot : s.tree.spellTo c.ops s.tree.root = [] := h.wf.spellTo_root
  have hdvd := dvd_len_viewKey c params.key
  have hvlen := length_insertValue params
  have unfold_insert : s.insert c params now = s.insertHelper c s.tree.root (c.viewKey params.key)
      (insertValue c params) params.priority params.chunked now := by
    simp only [insert, hdis, Bool.false_eq_true, if_false]
    rfl
  rw [unfold_insert]
  generalize c.viewKey params.key = r at hdvd hvlen ⊢
  generalize insertValue c params = value at hvlen ⊢
  generalize hs₀ : (s.touch s.tree.root now).raisePriority s.tree.root (params.priority.getD 0) = s₀
  have ht₀ : s₀.tree = s.tree := by rw [← hs₀]; rfl
  have hr₀ : Reshaped c s s₀ := by rw [← hs₀]; exact ⟨rfl, rfl, rfl, .inl rfl⟩
  simp only [insertHelper, hs₀, bind_eq_bind]
  by_cases h0 : r.len = 0
  · rw [if_pos (by simpa using h0)]
    refine ⟨s₀, 0, s.tree.root, rfl, ?_, .inl ⟨h0.symm, hr₀⟩⟩
    rw [← hroot]
    exact .zero h.wf h.wf.root_live fun hpos => by omega
  rw [if_neg (by simpa using h0)]
  obtain ⟨ck, hck⟩ := isSome_iff_exists.mp
    (r.childKey_isSome c.pageSize_pos (Nat.le_of_dvd (Nat.pos_of_ne_zero h0) hdvd))
  obtain ⟨s₁, w, m, hres, hend⟩ := insertLoop_spec now (params.priority.getD 0) params.chunked
    (w := ⟨s.tree.root, r, ck, value, 0⟩) (h.reshape hr₀) (by rw [ht₀]; exact h.wf.root_live)
    (Nat.lt_succ_self _) hdvd fun _ => hck
  simp only [hck, bind_some, hres]
  obtain ⟨hr, hlive, hlong, htot, hunits, hval, hspell, hstuck⟩ := hend
  simp only [ht₀, hroot, nil_append, Nat.zero_add] at hlong htot hunits hval hspell
  have hwlen : w.key.len = r.len - m := by
    rw [← length_units, hunits, length_drop, length_units]
  have hm : m ≤ r.len := by simpa using hlong.1
  have hr₁ : Reshaped c s s₁ := hr₀.of_tree_eq ht₀ hr
  rw [htot]
  by_cases hpos : w.key.len > 0
  · rw [if_pos hpos]
    obtain ⟨hlab, hno⟩ := hstuck hpos
    refine ⟨_, m, _, rfl, hlong, .inr ⟨s₁, w, now, _, _, by omega, hr₁, ?_, hunits, hval, ?_, hspell,
      rfl⟩⟩
    · refine ⟨hlive, hno, hlab, ?_, ?_⟩
      · simpa using hpos
      · rw [ops_units, length_units, hwlen]
        exact Nat.dvd_sub hdvd hlong.2.1
    · rw [hval, length_drop, hvlen, hwlen]
  · rw [if_neg hpos]
    exact ⟨s₁, m, w.node, rfl, hlong, .inl ⟨by omega, hr₁⟩⟩

end SglangRuntime.RadixCache
