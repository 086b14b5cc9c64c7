import SglangRuntime.Router.HashTree

/-!
# Router — what the hash tree keeps

The invariant of the tree and the effect of the three updates on what it lists.  A worker is listed
at a hash after a store exactly where it was before and at the stored hashes; a removal takes it off
the removed hashes, wherever in the tree they stand; a clear takes it off every hash.  None of this
needs the stored chains to be consistent.

Pruning only takes away nodes that list nobody (`Pruned`), and leaves no childless node without
workers (`Tidy`).
-/

namespace SglangRuntime.KvEvents.TreeState

open Foundation List Trie

variable {s s' s'' : TreeState} {i j p : NodeId} {h h' : BlockHash} {w w' : KvWorkerId}
  {C : NodeId → Prop}

structure Inv (s : TreeState) : Prop where
  wf : Trie.WF hashOps s.nodes
  root : s.nodes.root = rootId
  /-- the segment of a node is one hash -/
  key : ∀ {i}, s.nodes.Live i → i ≠ rootId → ∃ h, s.nodes.keyOf i = some [h]
  index : ∀ {h i}, i ∈ s.byHash h ↔ i ≠ rootId ∧ s.nodes.keyOf i = some [h]

/-- The worker is listed at a node of the hash. -/
def Lists (s : TreeState) (w : KvWorkerId) (h : BlockHash) : Prop :=
  ∃ i, i ≠ rootId ∧ s.nodes.keyOf i = some [h] ∧ w ∈ s.workersOf i

/-- Every childless node lists somebody, apart from those in `C`. -/
def TidyBut (C : NodeId → Prop) (s : TreeState) : Prop :=
  ∀ i, s.nodes.Live i → i ≠ rootId → s.nodes.childIds i = [] → s.workersOf i = ∅ → C i

abbrev Tidy (s : TreeState) : Prop := s.TidyBut fun _ => False

theorem Inv.new : Inv new where
  wf := wf_empty _ _ _
  root := rfl
  key {i} hi hr := by
    rw [live_iff] at hi
    obtain ⟨n, hn⟩ := hi
    simp only [TreeState.new, empty, Function.update_apply, rootId] at hn hr
    rw [if_neg hr] at hn
    cases hn
  index {h i} := by
    simp only [TreeState.new, Finset.notMem_empty, false_iff, not_and]
    intro hr
    simp only [keyOf, empty, Function.update_apply]
    rw [if_neg (show i ≠ 0 from hr)]
    simp

theorem Tidy.new : Tidy new := by
  intro i hi hr
  obtain ⟨h, hk⟩ := Inv.new.key hi hr
  have := (Inv.new.index (i := i) (h := h)).mpr ⟨hr, hk⟩
  simp [TreeState.new] at this

theorem not_lists_new (w : KvWorkerId) (h : BlockHash) : ¬ new.Lists w h := by
  rintro ⟨i, hr, hk, -⟩
  have := (Inv.new.index (i := i) (h := h)).mpr ⟨hr, hk⟩
  simp [TreeState.new] at this

/-- The child of a node under a hash, as the node of that hash below it. -/
theorem Inv.child_iff (hs : Inv s) :
    s.nodes.child p h = some i ↔ s.nodes.parentOf i = some p ∧ s.nodes.keyOf i = some [h] := by
  rw [hs.wf.child_iff]
  refine and_congr_right fun hp => ?_
  obtain ⟨h', hk⟩ := hs.key (live_of_parentOf hp) (hs.root ▸ hs.wf.ne_root_of_parentOf hp)
  rw [hk]
  simp [hashOps]

/-! ### Thinning -/

/-- `s'` is `s` with the workers `off` taken off their nodes, and without some of the nodes that list
nobody then. -/
structure Thinned (off : NodeId → KvWorkerId → Prop) (s s' : TreeState) : Prop where
  live : ∀ {i}, s'.nodes.Live i → s.nodes.Live i
  parentOf : ∀ {i}, s'.nodes.Live i → s'.nodes.parentOf i = s.nodes.parentOf i
  keyOf : ∀ {i}, s'.nodes.Live i → s'.nodes.keyOf i = s.nodes.keyOf i
  workers : ∀ {i w}, s'.nodes.Live i → (w ∈ s'.workersOf i ↔ w ∈ s.workersOf i ∧ ¬ off i w)
  gone : ∀ {i w}, s.nodes.Live i → ¬ s'.nodes.Live i → w ∈ s.workersOf i → off i w

/-- Nodes that list nobody are gone. -/
abbrev Pruned : TreeState → TreeState → Prop := Thinned fun _ _ => False

namespace Thinned

variable {off off' : NodeId → KvWorkerId → Prop}

theorem refl (s : TreeState) : Thinned off s s ↔ ∀ i w, s.nodes.Live i → w ∈ s.workersOf i → ¬ off i w := by
  constructor
  · exact fun t i w hl hw => ((t.workers hl).mp hw).2
  · exact fun h => ⟨id, fun _ => rfl, fun _ => rfl,
      fun hl => ⟨fun hw => ⟨hw, h _ _ hl hw⟩, And.left⟩, fun hl hn => absurd hl hn⟩

section

variable (t : Thinned off s s')
include t

theorem trans (t' : Thinned off' s' s'') :
    Thinned (fun i w => off i w ∨ off' i w) s s'' where
  live hl := t.live (t'.live hl)
  parentOf hl := (t'.parentOf hl).trans (t.parentOf (t'.live hl))
  keyOf hl := (t'.keyOf hl).trans (t.keyOf (t'.live hl))
  workers hl := by
    rw [t'.workers hl, t.workers (t'.live hl), not_or, and_assoc]
  gone {i w} hl hn hw := by
    by_cases hl' : s'.nodes.Live i
    · by_cases hoff : off i w
      · exact .inl hoff
      · exact .inr (t'.gone hl' hn ((t.workers hl').mpr ⟨hw, hoff⟩))
    · exact .inl (t.gone hl hl' hw)

theorem congr (h : ∀ i w, s.nodes.Live i → (off i w ↔ off' i w)) :
    Thinned off' s s' where
  live := t.live
  parentOf := t.parentOf
  keyOf := t.keyOf
  workers {i w} hl := by rw [t.workers hl, h i w (t.live hl)]
  gone {i w} hl hn hw := (h i w hl).mp (t.gone hl hn hw)

theorem lists_iff :
    s'.Lists w h ↔ ∃ i, i ≠ rootId ∧ s.nodes.keyOf i = some [h] ∧ w ∈ s.workersOf i ∧ ¬ off i w := by
  constructor
  · rintro ⟨i, hr, hk, hw⟩
    have hl := live_of_keyOf hk
    exact ⟨i, hr, (t.keyOf hl).symm.trans hk, (t.workers hl).mp hw⟩
  · rintro ⟨i, hr, hk, hw, hoff⟩
    have hl : s'.nodes.Live i := by
      by_contra hn
      exact hoff (t.gone (live_of_keyOf hk) hn hw)
    exact ⟨i, hr, (t.keyOf hl).trans hk, (t.workers hl).mpr ⟨hw, hoff⟩⟩

end

end Thinned

theorem Pruned.workersOf (t : Pruned s s') (hl : s'.nodes.Live i) : s'.workersOf i = s.workersOf i := by
  ext w
  rw [t.workers hl, not_false_eq_true, and_true]

/-! ### Pruning -/

theorem Inv.removeOk (hs : Inv s) (hr : i ≠ rootId) (hk : s.nodes.keyOf i = some [h])
    (hc : s.nodes.childIds i = []) : Trie.RemoveOk hashOps s.nodes i h where
  ne_root := hs.root ▸ hr
  live := live_of_keyOf hk
  label := by rw [hk]; rfl
  childless := hs.wf.childIds_eq_nil.mp hc

/-- One node of a cascade. -/
theorem Inv.dropNode (hs : Inv s) (hr : i ≠ rootId) (hk : s.nodes.keyOf i = some [h])
    (hp : s.Prunable i) : Inv (s.dropNode i h) ∧ Pruned s (s.dropNode i h) := by
  have ok := hs.removeOk hr hk hp.2
  obtain ⟨p, b⟩ := hs.wf.below ok.live ok.ne_root
  have hlive : ∀ {j}, (s.nodes.removeLeaf i h).Live j ↔ j ≠ i ∧ s.nodes.Live j := b.live_removeLeaf
  refine ⟨⟨hs.wf.removeLeaf ok, by rw [TreeState.dropNode, root_removeLeaf, hs.root], ?_, ?_⟩,
    ?_⟩
  · intro j hj hjr
    obtain ⟨hji, hj⟩ := hlive.mp hj
    obtain ⟨h', hk'⟩ := hs.key hj hjr
    exact ⟨h', by rw [TreeState.dropNode, b.keyOf_removeLeaf, if_neg hji, hk']⟩
  · intro h' j
    rw [TreeState.dropNode, b.keyOf_removeLeaf]
    by_cases hji : j = i
    · subst hji
      simp only [if_true, reduceCtorEq, and_false, iff_false, Function.update_apply]
      split_ifs with hh
      · exact Finset.notMem_erase _ _
      · rw [hs.index, hk]
        simp only [Option.some.injEq, List.cons.injEq, and_true, not_and]
        exact fun _ e => hh e.symm
    · rw [if_neg hji, ← hs.index]
      simp only [Function.update_apply]
      split_ifs with hh
      · subst hh
        rw [Finset.mem_erase, and_iff_right hji]
      · exact Iff.rfl
  · refine ⟨fun hl => (hlive.mp hl).2, fun hl => ?_, fun hl => ?_, fun hl => ?_,
      fun {j w} hl hn hw => ?_⟩
    · rw [TreeState.dropNode, b.parentOf_removeLeaf, if_neg (hlive.mp hl).1]
    · rw [TreeState.dropNode, b.keyOf_removeLeaf, if_neg (hlive.mp hl).1]
    · rw [workersOf, TreeState.dropNode, b.dataOf_removeLeaf, if_neg (hlive.mp hl).1,
        not_false_eq_true, and_true, workersOf]
    · obtain rfl : j = i := by
        by_contra hji
        exact hn (hlive.mpr ⟨hji, hl⟩)
      rw [hp.1] at hw
      exact Finset.notMem_empty _ hw

/-- Pruning a childless node exposes its parent at most. -/
theorem TidyBut.dropNode (hs : Inv s) (hp : s.nodes.parentOf i = some p)
    (hk : s.nodes.keyOf i = some [h]) (hi : s.Prunable i) (ht : s.TidyBut fun j => j = i ∨ C j) :
    (s.dropNode i h).TidyBut fun j => j = p ∨ C j := by
  have hr : i ≠ rootId := hs.root ▸ hs.wf.ne_root_of_parentOf hp
  have b := hs.wf.below_of_parentOf hp
  obtain ⟨hs', t⟩ := hs.dropNode hr hk hi
  intro j hj hjr hc hw
  by_cases hjp : j = p
  · exact .inl hjp
  have hji : j ≠ i := (b.live_removeLeaf.mp hj).1
  have hchildless : s.nodes.childIds j = [] := by
    rw [hs.wf.childIds_eq_nil]
    intro x hx
    have hxi : x ≠ i := by
      rintro rfl
      exact hjp (Option.some.inj (hx.symm.trans hp))
    refine hs'.wf.childIds_eq_nil.mp hc x ?_
    rw [TreeState.dropNode, b.parentOf_removeLeaf, if_neg hxi, hx]
  rw [t.workersOf hj] at hw
  exact .inr ((ht j (t.live hj) hjr hchildless hw).resolve_left hji)

theorem pruneLoop_spec : ∀ (fuel : Nat) {s : TreeState} {i : NodeId}, Inv s →
    s.nodes.Live i → i ≠ rootId → s.Prunable i → (s.nodes.path i).length ≤ fuel →
    (s.TidyBut fun j => j = i ∨ C j) →
    Inv (pruneLoop fuel s i) ∧ Pruned s (pruneLoop fuel s i) ∧ (pruneLoop fuel s i).TidyBut C := by
  intro fuel
  induction fuel with
  | zero =>
    intro s i hs hl hr _ hlen _
    obtain ⟨p, b⟩ := hs.wf.below hl (hs.root ▸ hr)
    rw [hs.wf.path_cons b.parent] at hlen
    cases hlen
  | succ fuel ih =>
    intro s i hs hl hr hi hlen ht
    obtain ⟨p, b⟩ := hs.wf.below hl (hs.root ▸ hr)
    obtain ⟨h, hk⟩ := hs.key hl hr
    have hh : s.blockHashOf i = some h := by rw [blockHashOf, hk]; rfl
    obtain ⟨hs', t⟩ := hs.dropNode hr hk hi
    have ht' := ht.dropNode hs b.parent hk hi
    simp only [pruneLoop, if_neg hr, b.parent, hh, if_pos hi]
    by_cases hgo : p ≠ rootId ∧ (s.dropNode i h).nodes.Live p ∧ (s.dropNode i h).Prunable p
    · rw [if_pos hgo]
      obtain ⟨hpr, hpl, hpp⟩ := hgo
      have hpath : ((s.dropNode i h).nodes.path p).length ≤ fuel := by
        have e : (s.dropNode i h).nodes.path p = s.nodes.path p :=
          hs.wf.path_removeLeaf (hs.removeOk hr hk hi.2) b.live b.ne.symm
        rw [hs.wf.path_cons b.parent, length_cons] at hlen
        rw [e]
        exact Nat.le_of_succ_le_succ hlen
      obtain ⟨hs'', t', ht''⟩ := ih hs' hpl hpr hpp hpath ht'
      exact ⟨hs'', (t.trans t').congr fun _ _ _ => or_self_iff, ht''⟩
    · rw [if_neg hgo]
      refine ⟨hs', t, fun j hj hjr hc hw => (ht' j hj hjr hc hw).resolve_left ?_⟩
      rintro rfl
      exact hgo ⟨hjr, hj, hw, hc⟩

/-- **A cascade takes away nodes that list nobody, and tidies up what it started from.** -/
theorem pruneCascade_spec (hs : Inv s) (hl : s.nodes.Live i) (hr : i ≠ rootId)
    (hi : s.Prunable i) (ht : s.TidyBut fun j => j = i ∨ C j) :
    Inv (s.pruneCascade i) ∧ Pruned s (s.pruneCascade i) ∧ (s.pruneCascade i).TidyBut C :=
  pruneLoop_spec _ hs hl hr hi (hs.wf.length_path_le (hs.wf.isPath hl)) ht

theorem TidyBut.resolve (ht : s.TidyBut fun j => j = i ∨ C j)
    (hi : ¬ s.Prunable i) : s.TidyBut C := by
  intro j hj hjr hc hw
  refine (ht j hj hjr hc hw).resolve_left ?_
  rintro rfl
  exact hi ⟨hw, hc⟩

/-! ### Taking a worker off a node -/

/-- The invariant does not read who is listed. -/
theorem Inv.sameShape (hs : Inv s) (t : Trie.SameShape s.nodes s'.nodes)
    (hb : s'.byHash = s.byHash) : Inv s' where
  wf := t.wf hs.wf
  root := t.root.trans hs.root
  key hj hjr := by
    obtain ⟨h, hk⟩ := hs.key (t.live.mp hj) hjr
    exact ⟨h, (t.keyOf _).trans hk⟩
  index {h j} := by rw [hb, t.keyOf]; exact hs.index

theorem sameShape_eraseWorker (s : TreeState) (w : KvWorkerId) (i : NodeId) :
    Trie.SameShape s.nodes (s.eraseWorker w i).nodes :=
  Trie.SameShape.modifyData s.nodes i fun ws => ws.erase w

theorem Inv.eraseWorker (hs : Inv s) (w : KvWorkerId) (i : NodeId) : Inv (s.eraseWorker w i) :=
  hs.sameShape (sameShape_eraseWorker s w i) rfl

theorem mem_workersOf_eraseWorker (hl : s.nodes.Live i) :
    w' ∈ (s.eraseWorker w i).workersOf j ↔ w' ∈ s.workersOf j ∧ ¬ (j = i ∧ w' = w) := by
  rw [workersOf, workersOf, eraseWorker, dataOf_modifyData]
  split_ifs with hji
  · subst hji
    obtain ⟨ws, hd⟩ := hl.data
    rw [hd, Option.map_some, Option.getD_some, Option.getD_some, Finset.mem_erase]
    tauto
  · simp [hji]

theorem TidyBut.sameShape (hs : Inv s) (t : Trie.SameShape s.nodes s'.nodes)
    (ht : s.TidyBut C) (hw : ∀ j, s'.workersOf j = ∅ → ¬ C j → s.workersOf j = ∅) :
    s'.TidyBut C := by
  intro j hj hjr hc hempty
  by_contra hC
  refine hC (ht j (t.live.mp hj) hjr ?_ (hw j hempty hC))
  rw [(t.wf hs.wf).childIds_eq_nil] at hc
  rw [hs.wf.childIds_eq_nil]
  exact fun x hx => hc x ((t.parentOf x).trans hx)

theorem TidyBut.mono {C' : NodeId → Prop} (ht : s.TidyBut C) (hC : ∀ j, C j → C' j) : s.TidyBut C' :=
  fun j hj hjr hc hw => hC j (ht j hj hjr hc hw)

theorem TidyBut.eraseWorker (hs : Inv s) (hl : s.nodes.Live i)
    (ht : s.TidyBut C) : (s.eraseWorker w i).TidyBut fun j => j = i ∨ C j := by
  refine (ht.mono fun _ => .inr).sameShape hs (sameShape_eraseWorker s w i) fun j hj hC => ?_
  rw [Finset.eq_empty_iff_forall_notMem] at hj ⊢
  intro w' hw'
  exact hj w' ((mem_workersOf_eraseWorker hl).mpr ⟨hw', fun e => hC (.inl e.1)⟩)

theorem thinned_eraseWorker (hl : s.nodes.Live i) :
    Thinned (fun j w' => j = i ∧ w' = w) s (s.eraseWorker w i) where
  live hj := (sameShape_eraseWorker s w i).live.mp hj
  parentOf _ := (sameShape_eraseWorker s w i).parentOf _
  keyOf _ := (sameShape_eraseWorker s w i).keyOf _
  workers _ := mem_workersOf_eraseWorker hl
  gone hj hn := absurd ((sameShape_eraseWorker s w i).live.mpr hj) hn

/-! ### Removal -/

theorem removeTarget_spec (hs : Inv s) (ht : s.Tidy) (hr : i ≠ rootId) :
    Inv (removeTarget w s i) ∧ (removeTarget w s i).Tidy ∧
      Thinned (fun j w' => j = i ∧ w' = w) s (removeTarget w s i) := by
  rw [removeTarget]
  by_cases hl : s.nodes.Live i
  · simp only [if_pos hl]
    have hs' := hs.eraseWorker w i
    have ht' := ht.eraseWorker (w := w) hs hl
    have t := thinned_eraseWorker (w := w) hl
    by_cases hp : (s.eraseWorker w i).Prunable i
    · rw [if_pos hp]
      obtain ⟨h₁, h₂, h₃⟩ :=
        pruneCascade_spec hs' ((sameShape_eraseWorker s w i).live.mpr hl) hr hp ht'
      exact ⟨h₁, h₃, (t.trans h₂).congr fun _ _ _ => or_iff_left id⟩
    · rw [if_neg hp]
      exact ⟨hs', ht'.resolve hp, t⟩
  · rw [if_neg hl]
    refine ⟨hs, ht, (Thinned.refl s).mpr fun j w' hj _ e => ?_⟩
    exact hl (e.1 ▸ hj)

theorem removeTargets_spec {targets : List NodeId} (hr : rootId ∉ targets) :
    ∀ {s : TreeState}, Inv s → s.Tidy →
    Inv (targets.foldl (removeTarget w) s) ∧ (targets.foldl (removeTarget w) s).Tidy ∧
      Thinned (fun j w' => j ∈ targets ∧ w' = w) s (targets.foldl (removeTarget w) s) := by
  induction targets with
  | nil => exact fun hs ht => ⟨hs, ht, (Thinned.refl _).mpr fun _ _ _ _ e => not_mem_nil e.1⟩
  | cons i targets ih =>
    intro s hs ht
    rw [mem_cons, not_or] at hr
    obtain ⟨hs₁, ht₁, t₁⟩ := removeTarget_spec (w := w) hs ht (Ne.symm hr.1)
    obtain ⟨hs₂, ht₂, t₂⟩ := ih hr.2 hs₁ ht₁
    refine ⟨hs₂, ht₂, (t₁.trans t₂).congr fun j w' _ => ?_⟩
    rw [mem_cons, or_and_right]

/-- **A removal takes the worker off the removed hashes, wherever they stand.** -/
theorem Inv.remove (hs : Inv s) (ht : s.Tidy) (ord : SetOrder) (w : KvWorkerId)
    (blockHashes : List BlockHash) :
    Inv (s.remove ord w blockHashes) ∧ (s.remove ord w blockHashes).Tidy ∧
      Thinned (fun i w' => (∃ h ∈ blockHashes, s.nodes.keyOf i = some [h]) ∧ i ≠ rootId ∧ w' = w) s
        (s.remove ord w blockHashes) := by
  have hmem : ∀ i, i ∈ blockHashes.flatMap (fun h => ord.toList (s.byHash h)) ↔
      (∃ h ∈ blockHashes, s.nodes.keyOf i = some [h]) ∧ i ≠ rootId := by
    intro i
    simp only [mem_flatMap, ord.mem_toList, hs.index]
    constructor
    · rintro ⟨h, hh, hr, hk⟩
      exact ⟨⟨h, hh, hk⟩, hr⟩
    · rintro ⟨⟨h, hh, hk⟩, hr⟩
      exact ⟨h, hh, hr, hk⟩
  obtain ⟨hs', ht', t⟩ := removeTargets_spec (w := w)
    (fun hroot => ((hmem rootId).mp hroot).2 rfl) hs ht
  refine ⟨hs', ht', t.congr fun i w' _ => ?_⟩
  rw [hmem, and_assoc]

theorem lists_remove (hs : Inv s) (ht : s.Tidy) (ord : SetOrder) (blockHashes : List BlockHash) :
    (s.remove ord w blockHashes).Lists w' h ↔ s.Lists w' h ∧ ¬ (w' = w ∧ h ∈ blockHashes) := by
  rw [(hs.remove ht ord w blockHashes).2.2.lists_iff]
  constructor
  · rintro ⟨i, hr, hk, hw, hoff⟩
    exact ⟨⟨i, hr, hk, hw⟩, fun ⟨e, hh⟩ => hoff ⟨⟨h, hh, hk⟩, hr, e⟩⟩
  rintro ⟨⟨i, hr, hk, hw⟩, hoff⟩
  refine ⟨i, hr, hk, hw, ?_⟩
  rintro ⟨⟨h', hh', hk'⟩, -, e⟩
  obtain rfl : h = h' := by simpa using hk.symm.trans hk'
  exact hoff ⟨e, hh'⟩

/-! ### Clearing a worker -/

theorem clearLoop_spec {ids : List NodeId} (hr : rootId ∉ ids) : ∀ {s : TreeState}
    {C : NodeId → Prop}, Inv s → s.TidyBut C → (∀ i ∈ ids, s.nodes.Live i) →
    Inv (clearLoop w ids s).1 ∧
      (clearLoop w ids s).1.TidyBut (fun j => j ∈ (clearLoop w ids s).2 ∨ C j) ∧
      Thinned (fun j w' => j ∈ ids ∧ w' = w) s (clearLoop w ids s).1 ∧
      ∀ i ∈ (clearLoop w ids s).2, i ≠ rootId := by
  induction ids with
  | nil =>
    exact fun hs ht _ => ⟨hs, ht.mono fun _ => .inr,
      (Thinned.refl _).mpr fun _ _ _ _ e => not_mem_nil e.1,
      fun i hi => absurd hi not_mem_nil⟩
  | cons i ids ih =>
    intro s C hs ht hlive
    rw [mem_cons, not_or] at hr
    have hl := hlive i mem_cons_self
    have hlive' := fun j hj => hlive j (mem_cons_of_mem i hj)
    rw [clearLoop]
    by_cases hw : w ∈ s.workersOf i
    · simp only [if_pos hw]
      have hs₁ := hs.eraseWorker w i
      have ht₁ := ht.eraseWorker (w := w) hs hl
      have hlive₁ : ∀ j ∈ ids, (s.eraseWorker w i).nodes.Live j := fun j hj =>
        (sameShape_eraseWorker s w i).live.mpr (hlive' j hj)
      by_cases hp : (s.eraseWorker w i).Prunable i
      · obtain ⟨hs₂, ht₂, t₂, hn₂⟩ := ih hr.2 hs₁ ht₁ hlive₁
        simp only [if_pos hp]
        refine ⟨hs₂, ht₂.mono fun j hj => ?_,
          ((thinned_eraseWorker hl).trans t₂).congr fun j w' _ => ?_, fun j hj => ?_⟩
        · rw [mem_cons]
          tauto
        · rw [mem_cons, or_and_right]
        · rcases mem_cons.mp hj with rfl | hj
          · exact Ne.symm hr.1
          · exact hn₂ j hj
      · obtain ⟨hs₂, ht₂, t₂, hn₂⟩ := ih hr.2 hs₁ (ht₁.resolve hp) hlive₁
        simp only [if_neg hp]
        refine ⟨hs₂, ht₂, ((thinned_eraseWorker hl).trans t₂).congr fun j w' _ => ?_, hn₂⟩
        rw [mem_cons, or_and_right]
    · rw [if_neg hw]
      obtain ⟨hs₂, ht₂, t₂, hn₂⟩ := ih hr.2 hs ht hlive'
      -- `i` does not list the worker, so nothing comes off it
      have t : Thinned (fun j w' => j = i ∧ w' = w) s s :=
        (Thinned.refl s).mpr fun j w' _ hw' e => hw (e.1 ▸ e.2 ▸ hw')
      refine ⟨hs₂, ht₂, (t.trans t₂).congr fun j w' _ => ?_, hn₂⟩
      rw [mem_cons, or_and_right]

theorem pruneLoop_of_not_prunable {fuel : Nat} (hi : ¬ s.Prunable i) : pruneLoop fuel s i = s := by
  cases fuel with
  | zero => rfl
  | succ =>
    rw [pruneLoop]
    split_ifs
    · rfl
    · split <;> rfl

/-- The second loop of `clear_worker`. -/
theorem pruneAll_spec {candidates : List NodeId} (hr : ∀ i ∈ candidates, i ≠ rootId) :
    ∀ {s : TreeState}, Inv s → (s.TidyBut fun j => j ∈ candidates) →
    Inv (candidates.foldl (fun s id => if s.nodes.Live id then s.pruneCascade id else s) s) ∧
      (candidates.foldl (fun s id => if s.nodes.Live id then s.pruneCascade id else s) s).Tidy ∧
      Pruned s (candidates.foldl (fun s id => if s.nodes.Live id then s.pruneCascade id else s) s) := by
  induction candidates with
  | nil => exact fun hs ht => ⟨hs, ht.mono fun _ => not_mem_nil,
      (Thinned.refl _).mpr fun _ _ _ _ => id⟩
  | cons i candidates ih =>
    intro s hs ht
    have hr' := fun j hj => hr j (mem_cons_of_mem i hj)
    have ht' : s.TidyBut fun j => j = i ∨ j ∈ candidates := ht.mono fun _ => mem_cons.mp
    rw [foldl_cons]
    by_cases hl : s.nodes.Live i
    · rw [if_pos hl]
      by_cases hp : s.Prunable i
      · obtain ⟨hs₁, t₁, ht₁⟩ := pruneCascade_spec hs hl (hr i mem_cons_self) hp ht'
        obtain ⟨hs₂, ht₂, t₂⟩ := ih hr' hs₁ ht₁
        exact ⟨hs₂, ht₂, (t₁.trans t₂).congr fun _ _ _ => or_self_iff⟩
      · rw [pruneCascade, pruneLoop_of_not_prunable hp]
        exact ih hr' hs (ht'.resolve hp)
    · rw [if_neg hl]
      refine ih hr' hs fun j hj hjr hc hw => (ht' j hj hjr hc hw).resolve_left ?_
      rintro rfl
      exact hl hj

theorem Inv.mem_ids (hs : Inv s) : i ∈ s.ids ↔ s.nodes.Live i ∧ i ≠ rootId := by
  rw [ids, Finset.mem_filter, Finset.mem_range]
  exact ⟨And.right, fun h => ⟨hs.wf.lt_counter h.1, h⟩⟩

/-- **A clear takes the worker off every node.** -/
theorem Inv.clearWorker (hs : Inv s) (ht : s.Tidy) (ord : SetOrder) (w : KvWorkerId) :
    Inv (s.clearWorker ord w) ∧ (s.clearWorker ord w).Tidy ∧
      Thinned (fun i w' => i ≠ rootId ∧ w' = w) s (s.clearWorker ord w) := by
  have hmem (i) : i ∈ ord.toList s.ids ↔ s.nodes.Live i ∧ i ≠ rootId :=
    ord.mem_toList.trans hs.mem_ids
  have hroot : rootId ∉ ord.toList s.ids := fun hroot => ((hmem rootId).mp hroot).2 rfl
  obtain ⟨hs₁, ht₁, t₁, hr⟩ := clearLoop_spec (w := w) hroot hs ht fun i hi => ((hmem i).mp hi).1
  obtain ⟨hs₂, ht₂, t₂⟩ := pruneAll_spec hr hs₁ (ht₁.mono fun _ hj => hj.resolve_right id)
  refine ⟨hs₂, ht₂, (t₁.trans t₂).congr fun i w' hl => ?_⟩
  rw [hmem, or_false, and_iff_right hl]

theorem lists_clearWorker (hs : Inv s) (ht : s.Tidy) (ord : SetOrder) :
    (s.clearWorker ord w).Lists w' h ↔ s.Lists w' h ∧ w' ≠ w := by
  rw [(hs.clearWorker ht ord w).2.2.lists_iff]
  constructor
  · rintro ⟨i, hr, hk, hw, hoff⟩
    exact ⟨⟨i, hr, hk, hw⟩, fun e => hoff ⟨hr, e⟩⟩
  · rintro ⟨⟨i, hr, hk, hw⟩, hne⟩
    exact ⟨i, hr, hk, hw, fun e => hne e.2⟩

/-! ### Stores -/

theorem live_of_mem_workersOf (hw : w ∈ s.workersOf i) : s.nodes.Live i := by
  rw [workersOf] at hw
  rcases hd : s.nodes.dataOf i with - | ws
  · rw [hd] at hw
    exact absurd hw (Finset.notMem_empty w)
  · exact live_of_dataOf hd

/-- `s'` is `s` with nodes added, and `w` listed at the nodes `on`. -/
structure Grown (w : KvWorkerId) (on : NodeId → Prop) (s s' : TreeState) : Prop where
  live : ∀ {i}, s'.nodes.Live i ↔ s.nodes.Live i ∨ on i
  parentOf : ∀ {i}, s.nodes.Live i → s'.nodes.parentOf i = s.nodes.parentOf i
  keyOf : ∀ {i}, s.nodes.Live i → s'.nodes.keyOf i = s.nodes.keyOf i
  workers : ∀ {i w'}, w' ∈ s'.workersOf i ↔ w' ∈ s.workersOf i ∨ (on i ∧ w' = w)

theorem leafOk (hl : s.nodes.Live p) (hc : s.nodes.child p h = none) :
    Trie.LeafOk hashOps s.nodes p h [h] :=
  ⟨hl, hc, rfl, Nat.one_pos, one_dvd _⟩

/-- A new node below a live one. -/
theorem Inv.createChild (hs : Inv s) (hl : s.nodes.Live p) (hc : s.nodes.child p h = none) :
    Inv (s.createChild p h).1 := by
  have ok := leafOk hl hc
  have hpm := hs.wf.ne_counter hl
  have hcr : s.nodes.counter ≠ rootId := hs.root ▸ hs.wf.root_ne_counter.symm
  simp only [TreeState.createChild, if_pos hl]
  refine ⟨hs.wf.addLeaf ok, hs.root, fun {j} hj hjr => ?_, fun {h' j} => ?_⟩
  · by_cases hjm : j = s.nodes.counter
    · exact ⟨h, by rw [keyOf_addLeaf hpm, if_pos hjm]⟩
    · obtain ⟨h', hk⟩ := hs.key (((live_addLeaf hpm).mp hj).resolve_left hjm) hjr
      exact ⟨h', by rw [keyOf_addLeaf hpm, if_neg hjm, hk]⟩
  simp only [keyOf_addLeaf hpm, Function.update_apply]
  by_cases hjm : j = s.nodes.counter
  · have hnot : ∀ {h'}, s.nodes.counter ∉ s.byHash h' := fun hmem =>
      hs.wf.fresh (live_of_keyOf (hs.index.mp hmem).2)
    rw [if_pos hjm, hjm, and_iff_right hcr]
    split_ifs with hh
    · simp [hh]
    · simp only [hnot, false_iff, Option.some.injEq, List.cons.injEq, and_true]
      exact fun e => hh e.symm
  · rw [if_neg hjm, ← hs.index]
    split_ifs with hh
    · rw [Finset.mem_insert, or_iff_right hjm, hh]
    · exact Iff.rfl

theorem sameShape_addWorker (s : TreeState) (w : KvWorkerId) (i : NodeId) :
    Trie.SameShape s.nodes (s.addWorker w i).nodes :=
  Trie.SameShape.modifyData s.nodes i fun ws => Insert.insert w ws

/-- Listing a worker at a live node. -/
theorem grown_addWorker (hl : s.nodes.Live i) : Grown w (· = i) s (s.addWorker w i) where
  live {j} := by
    rw [(sameShape_addWorker s w i).live, or_iff_left_of_imp]
    rintro rfl
    exact hl
  parentOf _ := (sameShape_addWorker s w i).parentOf _
  keyOf _ := (sameShape_addWorker s w i).keyOf _
  workers {j w'} := by
    rw [workersOf, workersOf, addWorker, dataOf_modifyData]
    split_ifs with hji
    · obtain ⟨ws, hd⟩ := hl.data
      subst hji
      rw [hd, Option.map_some, Option.getD_some, Option.getD_some, Finset.mem_insert]
      tauto
    · simp [hji]

/-- The tree with a new node below `p`. -/
def withLeaf (s : TreeState) (p : NodeId) (h : BlockHash) : TreeState where
  nodes := s.nodes.addLeaf p h [h] ∅
  byHash := Function.update s.byHash h (Insert.insert s.nodes.counter (s.byHash h))

theorem createChild_eq (hl : s.nodes.Live p) :
    s.createChild p h = (s.withLeaf p h, some s.nodes.counter) := by
  rw [createChild, if_pos hl, withLeaf]

theorem workersOf_withLeaf (hs : Inv s) (hl : s.nodes.Live p) :
    (s.withLeaf p h).workersOf j = s.workersOf j := by
  rw [workersOf, workersOf, withLeaf, dataOf_addLeaf (hs.wf.ne_counter hl)]
  split_ifs with hjm
  · have hdead : s.nodes.dataOf j = none := by
      rcases hd : s.nodes.dataOf j with - | ws
      · rfl
      · exact absurd (live_of_dataOf hd) (hjm ▸ hs.wf.fresh)
    rw [hdead]
    rfl
  · rfl

/-- Only the new node may be left without workers and children. -/
theorem Tidy.withLeaf (hs : Inv s) (ht : s.Tidy) (hl : s.nodes.Live p)
    (hc : s.nodes.child p h = none) : (s.withLeaf p h).TidyBut (· = s.nodes.counter) := by
  have hpm := hs.wf.ne_counter hl
  intro j hj hjr hchild hempty
  by_contra hjm
  refine ht j (((live_addLeaf hpm).mp hj).resolve_left hjm) hjr ?_
    (workersOf_withLeaf hs hl ▸ hempty)
  rw [TreeState.withLeaf, (hs.wf.addLeaf (leafOk hl hc)).childIds_eq_nil] at hchild
  rw [hs.wf.childIds_eq_nil]
  intro x hx
  refine hchild x ?_
  rw [parentOf_addLeaf hpm, if_neg (hs.wf.ne_counter (live_of_parentOf hx)), hx]

/-- One round of the loop of `insert`: it goes to the child of that hash, and lists the worker
there. -/
theorem insertLoop_cons (hs : Inv s) (ht : s.Tidy) (hl : s.nodes.Live p) (w : KvWorkerId)
    (h : BlockHash) (hashes : List BlockHash) : ∃ s₁ child,
    insertLoop w (h :: hashes) p s = insertLoop w hashes child s₁ ∧ Inv s₁ ∧ s₁.Tidy ∧
      s₁.nodes.parentOf child = some p ∧ s₁.nodes.keyOf child = some [h] ∧
      Grown w (· = child) s s₁ := by
  rcases hc : s.nodes.child p h with - | child
  · -- a new node, which lists the worker at once
    have hpm := hs.wf.ne_counter hl
    have hs₀ := hs.createChild hl hc
    rw [createChild_eq hl] at hs₀
    have hl₀ : (s.withLeaf p h).nodes.Live s.nodes.counter := (live_addLeaf hpm).mpr (.inl rfl)
    have hg := grown_addWorker (w := w) hl₀
    have hshape := sameShape_addWorker (s.withLeaf p h) w s.nodes.counter
    refine ⟨(s.withLeaf p h).addWorker w s.nodes.counter, s.nodes.counter, ?_, hs₀.sameShape hshape rfl, ?_, ?_, ?_, ?_⟩
    · rw [insertLoop, childOrCreate, hc]
      simp only [createChild_eq hl, if_pos hl₀]
    · refine fun j hj hjr hchild hempty => ?_
      have hj₀ := (ht.withLeaf hs hl hc).sameShape hs₀ hshape (fun j hj _ => ?_) j hj hjr hchild hempty
      · subst hj₀
        exact Finset.notMem_empty w (hempty ▸ hg.workers.mpr (.inr ⟨rfl, rfl⟩))
      · rw [Finset.eq_empty_iff_forall_notMem] at hj ⊢
        exact fun w' hw' => hj w' (hg.workers.mpr (.inl hw'))
    · rw [hshape.parentOf, withLeaf, parentOf_addLeaf hpm, if_pos rfl]
    · rw [hshape.keyOf, withLeaf, keyOf_addLeaf hpm, if_pos rfl]
    · refine ⟨fun {j} => ?_, fun {j} hj => ?_, fun {j} hj => ?_, fun {j w'} => ?_⟩
      · rw [hshape.live, withLeaf, live_addLeaf hpm, or_comm]
      · rw [hshape.parentOf, withLeaf, parentOf_addLeaf hpm, if_neg (hs.wf.ne_counter hj)]
      · rw [hshape.keyOf, withLeaf, keyOf_addLeaf hpm, if_neg (hs.wf.ne_counter hj)]
      · rw [hg.workers, workersOf_withLeaf hs hl]
  · obtain ⟨hp, hk⟩ := hs.child_iff.mp hc
    have hl₀ := live_of_parentOf hp
    have hg := grown_addWorker (w := w) hl₀
    have hshape := sameShape_addWorker s w child
    refine ⟨s.addWorker w child, child, ?_, hs.sameShape hshape rfl, ht.sameShape hs hshape fun j hj _ => ?_,
      (hshape.parentOf child).trans hp, (hshape.keyOf child).trans hk, hg⟩
    · rw [insertLoop, childOrCreate, hc]
      simp only [if_pos hl₀]
    · rw [Finset.eq_empty_iff_forall_notMem] at hj ⊢
      exact fun w' hw' => hj w' (hg.workers.mpr (.inl hw'))

theorem Grown.lists_iff {on : NodeId → Prop} (g : Grown w on s s') :
    s'.Lists w' h ↔ s.Lists w' h ∨ w' = w ∧ ∃ i, i ≠ rootId ∧ s'.nodes.keyOf i = some [h] ∧ on i := by
  constructor
  · rintro ⟨i, hr, hk, hw⟩
    rcases g.workers.mp hw with hw | ⟨hon, e⟩
    · exact .inl ⟨i, hr, (g.keyOf (live_of_mem_workersOf hw)).symm.trans hk, hw⟩
    · exact .inr ⟨e, i, hr, hk, hon⟩
  · rintro (⟨i, hr, hk, hw⟩ | ⟨e, i, hr, hk, hon⟩)
    · exact ⟨i, hr, (g.keyOf (live_of_keyOf hk)).trans hk, g.workers.mpr (.inl hw)⟩
    · exact ⟨i, hr, hk, g.workers.mpr (.inr ⟨hon, e⟩)⟩

theorem insertLoop_spec (w : KvWorkerId) (hashes : List BlockHash) : ∀ {s : TreeState} {p : NodeId},
    Inv s → s.Tidy → s.nodes.Live p → Inv (insertLoop w hashes p s) ∧
      (insertLoop w hashes p s).Tidy ∧
      ∀ w' h, (insertLoop w hashes p s).Lists w' h ↔ s.Lists w' h ∨ w' = w ∧ h ∈ hashes := by
  induction hashes with
  | nil => exact fun hs ht _ => ⟨hs, ht, fun w' h => by simp [insertLoop]⟩
  | cons h hashes ih =>
    intro s p hs ht hl
    obtain ⟨s₁, child, e, hs₁, ht₁, hp, hk, g⟩ := insertLoop_cons hs ht hl w h hashes
    obtain ⟨hs₂, ht₂, hlists⟩ := ih hs₁ ht₁ (live_of_parentOf hp)
    rw [e]
    refine ⟨hs₂, ht₂, fun w' h' => ?_⟩
    have hr : child ≠ rootId := hs₁.root ▸ hs₁.wf.ne_root_of_parentOf hp
    have hchild : (∃ i, i ≠ rootId ∧ s₁.nodes.keyOf i = some [h'] ∧ i = child) ↔ h' = h := by
      constructor
      · rintro ⟨i, -, hk', rfl⟩
        simpa using hk'.symm.trans hk
      · rintro rfl
        exact ⟨child, hr, hk, rfl⟩
    rw [hlists, g.lists_iff, hchild, mem_cons, and_or_left, or_assoc]

/-- The parent that a store resolves to is a node of the tree. -/
theorem Inv.live_resolveParent (hs : Inv s) (ord : SetOrder) (w : KvWorkerId)
    (parentHash : Option BlockHash) : s.nodes.Live (s.resolveParent ord w parentHash) := by
  have hroot : s.nodes.Live rootId := hs.root ▸ hs.wf.root_live
  rcases parentHash with - | h
  · exact hroot
  have hcand : ∀ {i}, i ∈ ord.toList (s.byHash h) → s.nodes.Live i := fun hi =>
    live_of_keyOf (hs.index.mp (ord.mem_toList.mp hi)).2
  rw [resolveParent]
  split_ifs with h₀ h₁
  · exact hroot
  · rcases hlist : ord.toList (s.byHash h) with - | ⟨i, l⟩
    · exact hroot
    · exact hcand (by rw [hlist]; exact mem_cons_self)
  · rcases hfind : (ord.toList (s.byHash h)).find? fun cand => decide (w ∈ s.workersOf cand) with - | i
    · exact hroot
    · exact hcand (mem_of_find?_eq_some hfind)

/-- **A store lists the worker at the stored hashes.** -/
theorem Inv.insert (hs : Inv s) (ht : s.Tidy) (ord : SetOrder) (w : KvWorkerId)
    (parentHash : Option BlockHash) (hashes : List BlockHash) :
    Inv (s.insert ord w parentHash hashes) ∧ (s.insert ord w parentHash hashes).Tidy ∧
      ∀ w' h, (s.insert ord w parentHash hashes).Lists w' h ↔ s.Lists w' h ∨ w' = w ∧ h ∈ hashes := by
  rw [TreeState.insert]
  split_ifs with hnil
  · exact ⟨hs, ht, fun w' h => by simp [hnil]⟩
  · exact insertLoop_spec w hashes hs ht (hs.live_resolveParent ord w parentHash)

/-- Every event keeps the tree. -/
theorem Inv.apply (hs : Inv s) (ht : s.Tidy) (ord : SetOrder) (w : KvWorkerId) (e : KvCacheEvent) :
    Inv (s.apply ord w e) ∧ (s.apply ord w e).Tidy := by
  cases e with
  | blockStored parent hashes _ =>
    obtain ⟨hs', ht', -⟩ := hs.insert ht ord w parent hashes
    exact ⟨hs', ht'⟩
  | blockRemoved hashes _ =>
    obtain ⟨hs', ht', -⟩ := hs.remove ht ord w hashes
    exact ⟨hs', ht'⟩
  | allBlocksCleared =>
    obtain ⟨hs', ht', -⟩ := hs.clearWorker ht ord w
    exact ⟨hs', ht'⟩

/-- An event adds nobody but its own worker. -/
theorem Inv.lists_apply (hs : Inv s) (ht : s.Tidy) {ord : SetOrder} {e : KvCacheEvent}
    (hl : (s.apply ord w e).Lists w' h) : s.Lists w' h ∨ w' = w := by
  cases e with
  | blockStored parent hashes _ =>
    exact (((hs.insert ht ord w parent hashes).2.2 w' h).mp hl).imp_right And.left
  | blockRemoved hashes _ => exact .inl ((lists_remove hs ht ord hashes).mp hl).1
  | allBlocksCleared => exact .inl ((lists_clearWorker hs ht ord).mp hl).1

end SglangRuntime.KvEvents.TreeState
