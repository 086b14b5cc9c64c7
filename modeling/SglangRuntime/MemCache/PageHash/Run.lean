import SglangRuntime.MemCache.PageHash.Operations

/-!
# Memory cache — page hashes in every run

`run_pageHashes`: whichever way the hashes of a node came to be set, they are the chain of its root
path; a digest that two nodes share therefore names one prefix.
-/

namespace SglangRuntime.PageHash

open Foundation Foundation.Trie Option RadixKey State List

variable {Digest : Type} {c : HashConfig Digest} {T T' : HashTree Digest} {i j p q : NodeId}
  {k : RadixKey} {st st' : State Digest} {w : InsertHostWalk Digest}

/-- While events or storage are on, every node holds its hashes. -/
structure Inv (c : HashConfig Digest) (st : State Digest) : Prop where
  right : Right c st.tree
  hashed : c.enableKvCacheEvents ∨ st.enableStorage → AllHashed st.tree

/-! ### Insertion from the device -/

theorem addNewNode_spec {d : ChildKey} (h : Inv c st) (s : LeafOk c.ops st.tree p d k)
    (hns : Continues st.tree p k) : ∃ st', addNewNode c st p d k = some st' ∧ Inv c st' := by
  obtain ⟨hr, hall⟩ := h
  have hpc := hr.wf.ne_counter s.live
  have h₁ : Right c (st.tree.addLeaf p d k ⟨none, none⟩) := hr.addLeaf s hns (fun _ e => nomatch e) rfl
  have hp₁ : (st.tree.addLeaf p d k ⟨none, none⟩).parentOf st.tree.counter = some p := by
    rw [parentOf_addLeaf hpc, if_pos rfl]
  have hold : ∀ j, j ≠ st.tree.counter →
      hashOf (st.tree.addLeaf p d k ⟨none, none⟩) j = hashOf st.tree j := fun j hj => by
    rw [hashOf, dataOf_addLeaf hpc, if_neg hj, hashOf]
  have hpar : c.enableKvCacheEvents ∨ st.enableStorage →
      p = (st.tree.addLeaf p d k ⟨none, none⟩).root ∨
        hashOf (st.tree.addLeaf p d k ⟨none, none⟩) p ≠ none := fun hon => by
    rw [hold p hpc]
    exact or_iff_not_imp_left.mpr (hall hon p s.live)
  have hrest : c.enableKvCacheEvents ∨ st.enableStorage → ∀ j,
      (st.tree.addLeaf p d k ⟨none, none⟩).Live j → j ≠ st.tree.root → j ≠ st.tree.counter →
      hashOf (st.tree.addLeaf p d k ⟨none, none⟩) j ≠ none := fun hon j hj hjr hjc => by
    rw [hold j hjc]
    exact hall hon j (((live_addLeaf hpc).mp hj).resolve_left hjc) hjr
  have hroot : (st.tree.addLeaf p d k ⟨none, none⟩).root = st.tree.root := rfl
  have hunfold : addNewNode c st p d k =
      ((if st.enableStorage then
          (computeNodeHashValues c (st.tree.addLeaf p d k ⟨none, none⟩) st.tree.counter).map
            (setHash (st.tree.addLeaf p d k ⟨none, none⟩) st.tree.counter)
        else some (st.tree.addLeaf p d k ⟨none, none⟩)).bind fun T =>
          (recordStore c T st.tree.counter).bind fun T => some { st with tree := T }) := by
    rw [addNewNode]
    split_ifs <;> rfl
  rw [hunfold]
  generalize st.tree.addLeaf p d k ⟨none, none⟩ = T at *
  -- first the hashes for storage, then those for the event
  obtain ⟨T₁, e₁, hr₁, hf₁, hset₁⟩ : ∃ T₁, (if st.enableStorage then
      (computeNodeHashValues c T st.tree.counter).map (setHash T st.tree.counter) else some T) =
        some T₁ ∧ Right c T₁ ∧ Fills T T₁ ∧
        (st.enableStorage → hashOf T₁ st.tree.counter ≠ none) := by
    split_ifs with hst
    · rw [computeNodeHashValues_eq h₁ hp₁ (hpar (.inr hst))]
      refine ⟨_, rfl, h₁.setHash hp₁, fills_setHash (live_of_parentOf hp₁), fun _ => ?_⟩
      rw [hashOf_setHash_self (live_of_parentOf hp₁)]
      exact some_ne_none _
    · exact ⟨T, rfl, h₁, .refl T, fun e => absurd e hst⟩
  obtain ⟨T₂, e₂, hr₂, hf₂, hset₂⟩ := recordStore_spec hr₁ ((hf₁.shape.parentOf _).trans hp₁)
    (fun hev => (hpar (.inl hev)).imp (fun e => e.trans hf₁.shape.root.symm) (hf₁.hash p))
  refine ⟨{ st with tree := T₂ }, by rw [e₁, bind_some, e₂]; rfl, hr₂, fun hon j hj hjr => ?_⟩
  have hf := hf₁.trans hf₂
  by_cases hjc : j = st.tree.counter
  · subst hjc
    exact hon.elim hset₂ fun hst => hf₂.hash _ (hset₁ hst)
  · exact hf.hash j (hrest hon j (hf.shape.live.mp hj) (by rwa [← hroot, ← hf.shape.root]) hjc)

/-! ### Insertion from the host -/

/-- What the walk of `insert_host` carries: the hashes behind the path of its node. -/
structure WalkOk (c : HashConfig Digest) (T : HashTree Digest) (w : InsertHostWalk Digest) : Prop where
  live : T.Live w.node
  dvd : c.pageSize ∣ w.key.len
  continues : Continues T w.node w.key
  hashes : w.hashValue = chainOf c.pageHash c.pageSize (digestAt c T none w.node) w.key.logicalUnits

theorem WalkOk.advance {m : Nat} (ok : WalkOk c T w) (h : T.WF c.ops)
    (hle : m ≤ w.key.len) (hd : c.pageSize ∣ m) (hlive : T'.Live j) (hns : Continues T' j w.key)
    (hspell : T'.spellTo c.ops j = T.spellTo c.ops w.node ++ w.key.units.take m) :
    WalkOk c T' ⟨j, w.key.sliceFrom m, w.hashValue.drop (m / c.pageSize)⟩ := by
  have hlen : (w.key.logicalUnits.take m).length = m := by
    rw [length_take, length_logicalUnits, min_eq_left hle]
  have hpath : pathUnits c T' j = pathUnits c T w.node ++ w.key.logicalUnits.take m := by
    rw [pathUnits, hspell, map_append, map_take, map_snd_units, pathUnits]
  have hrest : (w.key.sliceFrom m).logicalUnits = w.key.logicalUnits.drop m := by
    rw [← map_snd_units, units_sliceFrom, map_drop, map_snd_units]
  have hmul : (w.key.logicalUnits.take m).length = m / c.pageSize * c.pageSize := by
    rw [hlen, Nat.div_mul_cancel hd]
  have happ := chainOf_append (H := c.pageHash) c.pageSize_pos (digestAt c T none w.node) hmul
    (w.key.logicalUnits.drop m)
  rw [take_append_drop, ← ok.hashes] at happ
  refine ⟨hlive, ?_, ?_, ?_⟩
  · change c.pageSize ∣ (w.key.sliceFrom m).len
    rw [len_sliceFrom]
    exact Nat.dvd_sub ok.dvd hd
  · change Continues T' j (w.key.sliceFrom m)
    rw [Continues, sliceFrom, namespaceOf_getSlice]
    exact hns
  · change w.hashValue.drop (m / c.pageSize) = chainOf _ _ (digestAt c T' none j)
      (w.key.sliceFrom m).logicalUnits
    rw [digestAt_append h ok.live (by rwa [hlen]) hpath, hlen, hrest, happ]
    refine drop_left' ?_
    rw [length_chainOf, hmul, numPagesOf_mul c.pageSize_pos]

theorem insertHostLoop_spec (fuel : Nat) (h : Right c T)
    (ok : WalkOk c T w) (hfuel : w.key.len < fuel) :
    ∃ T' w', insertHostLoop c fuel T w = some (T', w') ∧ Right c T' ∧ WalkOk c T' w' ∧
      (AllHashed T → AllHashed T') ∧
      (w'.key.len ≠ 0 → ∃ d, w'.key.childKey c.pageSize = some d ∧ T'.child w'.node d = none) := by
  induction fuel generalizing T w with
  | zero => exact absurd hfuel (Nat.not_lt_zero _)
  | succ fuel ih =>
    rw [insertHostLoop]
    by_cases h0 : w.key.len = 0
    · rw [if_pos h0]
      exact ⟨T, w, rfl, h, ok, id, fun hne => absurd h0 hne⟩
    rw [if_neg h0]
    have hpage : c.pageSize ≤ w.key.len := Nat.le_of_dvd (Nat.pos_of_ne_zero h0) ok.dvd
    obtain ⟨d, hd⟩ := isSome_iff_exists.mp (w.key.childKey_isSome c.pageSize_pos hpage)
    rw [hd, bind_eq_bind, bind_some]
    cases hc : T.child w.node d with
    | none => exact ⟨T, w, rfl, h, ok, id, fun _ => ⟨d, hd, hc⟩⟩
    | some i =>
      obtain ⟨k, m, hf⟩ := found c.pageSize_pos h.wf hpage hd hc
      have hkr : k.namespaceOf = w.key.namespaceOf := by
        have hkl : c.pageSize ≤ k.len := hf.page_le.trans hf.le_key
        refine (same_view_of_take_units_eq c.pageSize_pos hkl hpage ?_).1
        exact (childKey_eq_iff _ _ c.pageSize_pos hkl hpage).mp (hf.label.trans hd.symm)
      have hpos := c.pageSize_pos
      have hpage_le := hf.page_le
      have hshort : (w.key.sliceFrom m).len < fuel := by
        rw [len_sliceFrom]
        omega
      have hir := h.wf.ne_root_of_parentOf hf.parent
      simp only [hf.key, hf.matchLen, bind_eq_bind, bind_some]
      split_ifs with hlt
      · have hdvd : c.pageSize ∣ k.len := by simpa using (h.wf.paged hir hf.key).2
        have hrest : c.pageSize ≤ (k.sliceFrom m).len := by
          rw [len_sliceFrom]
          exact Nat.le_of_dvd (Nat.sub_pos_of_lt hlt) (Nat.dvd_sub hdvd hf.page_dvd)
        obtain ⟨dRest, hdRest⟩ :=
          isSome_iff_exists.mp ((k.sliceFrom m).childKey_isSome c.pageSize_pos hrest)
        have hs : SplitOk c.ops T i d dRest m k :=
          ⟨hf.key, hir, by omega, by simpa using hlt, hf.page_dvd, hf.label, hdRest⟩
        have hb := h.wf.below_of_parentOf hf.parent
        have hkn : (splitNode c T i d dRest m).keyOf T.counter = some (k.sliceTo m) := by
          rw [splitNode, hb.keyOf_split, if_pos rfl, hf.key]
          rfl
        have hspell : (splitNode c T i d dRest m).spellTo c.ops T.counter =
            T.spellTo c.ops w.node ++ w.key.units.take m := by
          rw [splitNode, h.wf.spellTo_split_new hs hf.parent, ops_units, hf.agree]
        have ok' : WalkOk c (splitNode c T i d dRest m)
            ⟨T.counter, w.key.sliceFrom m, w.hashValue.drop (m / c.pageSize)⟩ := by
          refine ok.advance h.wf hf.le_rest hf.page_dvd (live_of_keyOf hkn) (.inr ?_) hspell
          rw [hkn, map_some, sliceTo, namespaceOf_getSlice, hkr]
        obtain ⟨T', w', e, hr, hw, hall, hfree⟩ := ih (h.splitNode hs) ok' hshort
        refine ⟨T', w', ?_, hr, hw, fun ha => hall (allHashed_splitNode h hs ha), hfree⟩
        rw [hf.label, bind_some, hdRest, bind_some]
        exact e
      · have hm : m = k.len := le_antisymm hf.le_key (not_lt.mp hlt)
        have ok' : WalkOk c T ⟨i, w.key.sliceFrom m, w.hashValue.drop (m / c.pageSize)⟩ :=
          ok.advance h.wf hf.le_rest hf.page_dvd (live_of_parentOf hf.parent)
            (.inr (by rw [hf.key, map_some, hkr])) (hf.spellTo_eq h.wf hm)
        exact ih h ok' hshort

/-- **`insert_host` does not raise**, and hangs the supplied hashes where they belong. -/
theorem insertHost_spec {hashes : List Digest} {drops : NodeId → Bool} (h : Inv c st)
    (ok : WalkOk c st.tree ⟨p, k, hashes⟩) :
    ∃ st', insertHost c st p k hashes drops = some st' ∧ Inv c st' := by
  obtain ⟨T, w, e, hr, hw, hall, hfree⟩ :=
    insertHostLoop_spec (k.len + 1) h.right ok (Nat.lt_succ_self _)
  rw [insertHost, e, bind_eq_bind, bind_some]
  dsimp only
  split_ifs with hstop
  · exact ⟨_, rfl, hr, fun hon => hall (h.hashed hon)⟩
  have hne : w.key.len ≠ 0 := fun e0 => hstop (by simp [e0])
  obtain ⟨d, hd, hc⟩ := hfree hne
  have hs : LeafOk c.ops T w.node d w.key :=
    ⟨hw.live, hc, hd, by simpa using Nat.pos_of_ne_zero hne, by simpa using hw.dvd⟩
  have hpc := hr.wf.ne_counter hw.live
  rw [hd, bind_eq_bind, bind_some]
  refine ⟨_, rfl, hr.addLeaf hs hw.continues (fun hs e => ?_) rfl, fun hon j hj hjr => ?_⟩
  · rw [← hw.hashes]
    exact (Option.some.inj e).symm
  change hashOf (T.addLeaf w.node d w.key ⟨some w.hashValue, none⟩) j ≠ none
  rw [hashOf, dataOf_addLeaf hpc]
  split_ifs with hjc
  · exact some_ne_none _
  · exact hall (h.hashed hon) j (((live_addLeaf hpc).mp hj).resolve_left hjc) hjr

/-! ### Runs -/

theorem inv_init (enable : Bool) : Inv c (init enable) := by
  have hdata : ∀ j a, (init enable : State Digest).tree.dataOf j = some a →
      j = (init enable : State Digest).tree.root ∧ a = ⟨some [], none⟩ := by
    intro j a e
    by_cases hj : j = 0
    · subst hj
      exact ⟨rfl, (Option.some.inj e).symm⟩
    · have hnone : (init enable : State Digest).tree.node j = none := by
        simp [init, Trie.empty, hj]
      rw [dataOf, hnone] at e
      cases e
  have hwf : (init enable : State Digest).tree.WF c.ops := wf_empty _ _ _
  have honly : ∀ j, (init enable : State Digest).tree.Live j →
      j = (init enable : State Digest).tree.root := fun j hj =>
    (hdata j _ hj.data.choose_spec).1
  refine ⟨⟨hwf, rfl, fun j hs hj e => ?_, fun j hs hj e => ?_, fun j q hq hr => ?_,
    fun j q hq hr => ?_⟩, fun _ j hj hjr => absurd (honly j hj) hjr⟩
  · exact absurd (honly j (live_of_hashOf e)) hj
  · exact absurd (honly j (live_of_eventHashOf e)) hj
  · exact absurd (honly j (live_of_parentOf hq)) (hwf.ne_root_of_parentOf hq)
  · exact absurd (honly j (live_of_parentOf hq)) (hwf.ne_root_of_parentOf hq)

theorem Inv.parent_hashed (h : Inv c st) (hp : st.tree.parentOf i = some p)
    (hon : c.enableKvCacheEvents) : p = st.tree.root ∨ hashOf st.tree p ≠ none :=
  or_iff_not_imp_left.mpr (h.hashed (.inl hon) p (h.right.wf.parent_live hp))

/-- **One step**: no exception, and the invariant is kept. -/
theorem exec_spec {e : Event Digest} (h : Inv c st) (hen : Enabled c st e) :
    ∃ st', exec c st e = some st' ∧ Inv c st' := by
  cases e with
  | addNewNode parent childKey key => exact addNewNode_spec h hen.1 hen.2
  | split i dTop dRest len =>
    obtain ⟨k, hs⟩ := hen
    exact ⟨_, rfl, h.right.splitNode hs,
      fun hon => allHashed_splitNode h.right hs (h.hashed hon)⟩
  | insertHost node key hashValue drops =>
    obtain ⟨hlive, hd, hns, hhash⟩ := hen
    refine insertHost_spec h ⟨hlive, hd, hns, ?_⟩
    rw [← drop_chainOf_path h.right.wf hlive]
    exact hhash
  | removeLeaf i d =>
    obtain ⟨p, b⟩ := h.right.wf.below hen.live hen.ne_root
    refine ⟨_, rfl, h.right.removeLeaf hen, fun hon j hj hjr => ?_⟩
    obtain ⟨hji, hj⟩ := b.live_removeLeaf.mp hj
    change (st.tree.removeLeaf i d).dataOf j |>.bind NodeHashes.hashValue |> (· ≠ none)
    rw [b.dataOf_removeLeaf, if_neg hji]
    exact h.hashed hon j hj (by rwa [← root_removeLeaf (T := st.tree) (i := i) (d := d)])
  | recordStore i =>
    obtain ⟨p, b⟩ := h.right.wf.below hen.1 hen.2
    obtain ⟨T, e, hr, hf, -⟩ := recordStore_spec h.right b.parent (h.parent_hashed b.parent)
    exact ⟨{ st with tree := T }, by rw [exec, e, map_some], hr,
      fun hon => hf.allHashed (h.hashed hon)⟩
  | recordRemove i =>
    obtain ⟨p, b⟩ := h.right.wf.below hen.1 hen.2
    obtain ⟨T, e, hr, hf⟩ := recordRemove_spec h.right b.parent (h.parent_hashed b.parent)
    exact ⟨{ st with tree := T }, by rw [exec, e, map_some], hr,
      fun hon => hf.allHashed (h.hashed hon)⟩
  | setStorage enable =>
    rw [exec, setStorage]
    by_cases hfill : (enable && !st.enableStorage)
    · obtain ⟨T, e, hr, hs, hall⟩ := backfillMissingHashValues_spec h.right
      rw [if_pos hfill, e]
      exact ⟨_, rfl, hr, fun _ => hall⟩
    · rw [if_neg hfill]
      refine ⟨_, rfl, h.right, fun hon => h.hashed (hon.imp_right fun hen => ?_)⟩
      -- storage is on already
      subst hen
      simpa using hfill
  | reset enable => exact ⟨_, rfl, inv_init enable⟩

theorem Run.inv (h : Run c st) : Inv c st := by
  induction h with
  | init enable => exact inv_init enable
  | step _ hen e ih =>
    obtain ⟨st', e', hinv⟩ := exec_spec ih hen
    cases e.symm.trans e'
    exact hinv

/-- **In every run, the hashes of a node are its part of the chain of its root path**, one for each
page, whether `_add_new_node`, `insert_host`, an event or the backfill set them; likewise the event
hashes of a node with a cache salt, with the salt as the first digest.  If the hash function is
injective, two nodes share a digest only if their root paths agree up to its page.  No step
raises. -/
theorem run_pageHashes (h : Run c st) :
    (∀ i k hs, st.tree.keyOf i = some k → i ≠ st.tree.root → hashOf st.tree i = some hs →
      hs.length * c.pageSize = k.len ∧
      hs = (chainOf c.pageHash c.pageSize none (pathUnits c st.tree i)).drop
        (pagesAbove c st.tree i)) ∧
    (∀ i k hs, st.tree.keyOf i = some k → i ≠ st.tree.root → eventHashOf st.tree i = some hs →
      hs.length * c.pageSize = k.len ∧ ∃ salt, k.cacheSalt = some salt ∧
        hs = (chainOf c.pageHash c.pageSize (some (c.saltHash salt)) (pathUnits c st.tree i)).drop
          (pagesAbove c st.tree i)) ∧
    ((∀ d d' us us', c.pageHash d us = c.pageHash d' us' → d = d' ∧ us = us') →
      ∀ i j hs hs' a b x, i ≠ st.tree.root → j ≠ st.tree.root →
        hashOf st.tree i = some hs → hashOf st.tree j = some hs' → hs[a]? = some x →
        hs'[b]? = some x →
        pagesAbove c st.tree i + a = pagesAbove c st.tree j + b ∧
        (pathUnits c st.tree i).take ((pagesAbove c st.tree i + a + 1) * c.pageSize) =
          (pathUnits c st.tree j).take ((pagesAbove c st.tree j + b + 1) * c.pageSize)) ∧
    ∀ e, Enabled c st e → (exec c st e).isSome := by
  obtain ⟨hr, hall⟩ := h.inv
  have hpages : ∀ seed i k, st.tree.keyOf i = some k → i ≠ st.tree.root →
      (wanted c st.tree seed i).length * c.pageSize = k.len := by
    intro seed i k hk hir
    obtain ⟨p, b⟩ := hr.wf.below (live_of_keyOf hk) hir
    obtain ⟨m, hm⟩ : c.pageSize ∣ k.len := by simpa using (hr.wf.paged hir hk).2
    rw [length_wanted hr.wf b.parent hk, hm, Nat.mul_comm c.pageSize m, numPagesOf_mul c.pageSize_pos]
  refine ⟨fun i k hs hk hir e => ?_, fun i k hs hk hir e => ?_, ?_, fun e hen => ?_⟩
  · have hw := hr.hash i hs hir e
    exact ⟨by rw [hw]; exact hpages none i k hk hir, hw⟩
  · obtain ⟨salt, hsalt, hw⟩ := hr.event i hs hir e
    rw [saltOf, hk, bind_some] at hsalt
    exact ⟨by rw [hw]; exact hpages _ i k hk hir, salt, hsalt, hw⟩
  · intro hinj i j hs hs' a b x hir hjr ei ej ha hb
    have hdig : ∀ i hs a, i ≠ st.tree.root → hashOf st.tree i = some hs → hs[a]? = some x →
        digestAfter c.pageHash c.pageSize (pagesAbove c st.tree i + a + 1) none
          (pathUnits c st.tree i) = some x := by
      intro i hs a hir ei ha
      obtain ⟨hlt, -⟩ := List.getElem?_eq_some_iff.mp ha
      have hw := hr.hash i hs hir ei
      rw [hw] at ha hlt
      rw [← getElem?_wanted hr.wf (live_of_hashOf ei) hlt, ha]
    obtain ⟨hpage, htake⟩ := digestAfter_inj hinj
      ((hdig i hs a hir ei ha).trans (hdig j hs' b hjr ej hb).symm)
    exact ⟨by omega, htake⟩
  · obtain ⟨st', e', -⟩ := exec_spec ⟨hr, hall⟩ hen
    rw [e']
    rfl

/-- Digests that keep what was hashed; pages of one token, no events. -/
def keptPages : HashConfig (List (List LogicalUnit)) where
  pageSize := 1
  pageSize_pos := Nat.one_pos
  pageHash := fun prior us => us :: (prior.map ([] :: ·)).getD []
  saltHash := fun _ => []
  enableKvCacheEvents := false

/-- Two nodes, added before there was storage. -/
def unhashedNode : State (List (List LogicalUnit)) where
  tree := (init false).tree.addLeaf 0 (.plain (.int 4)) ⟨[4, 5], none, none, false, none⟩
    ⟨none, none⟩
  enableStorage := false

def unhashedPath : State (List (List LogicalUnit)) where
  tree := unhashedNode.tree.addLeaf 1 (.plain (.int 6)) ⟨[6], none, none, false, none⟩ ⟨none, none⟩
  enableStorage := false

/-- Storage is attached late: the hashes of the lower node go on from those of the upper. -/
theorem run_pageHashes_backfilled : ∃ st hs, Run keptPages st ∧ hashOf st.tree 2 = some hs ∧
    hs = (chainOf keptPages.pageHash 1 none (pathUnits keptPages st.tree 2)).drop
      (pagesAbove keptPages st.tree 2) ∧
    (pathUnits keptPages st.tree 2).length = 3 := by
  have hleaf : LeafOk keptPages.ops (init false : State (List (List LogicalUnit))).tree 0
      (.plain (.int 4)) ⟨[4, 5], none, none, false, none⟩ :=
    ⟨by decide, by decide, by decide, by decide, by decide⟩
  have hleaf₂ : LeafOk keptPages.ops unhashedNode.tree 1 (.plain (.int 6))
      ⟨[6], none, none, false, none⟩ :=
    ⟨by decide, by decide, by decide, by decide, by decide⟩
  have hnode : Run keptPages unhashedNode := (Run.init false).step
    (e := .addNewNode 0 (.plain (.int 4)) ⟨[4, 5], none, none, false, none⟩) ⟨hleaf, .inl rfl⟩ rfl
  have hpath : Run keptPages unhashedPath := hnode.step
    (e := .addNewNode 1 (.plain (.int 6)) ⟨[6], none, none, false, none⟩)
    ⟨hleaf₂, .inr (by decide)⟩ rfl
  obtain ⟨st, hst, hkey, hroot, hhash, hlen⟩ : ∃ st ∈ exec keptPages unhashedPath (.setStorage true),
      st.tree.keyOf 2 = some ⟨[6], none, none, false, none⟩ ∧ 2 ≠ st.tree.root ∧
      (hashOf st.tree 2).isSome ∧ (pathUnits keptPages st.tree 2).length = 3 := by
    decide +kernel
  obtain ⟨hs, ehs⟩ := isSome_iff_exists.mp hhash
  have hrun := hpath.step (e := .setStorage true) trivial hst
  exact ⟨st, hs, hrun, ehs, ((run_pageHashes hrun).1 2 _ hs hkey hroot ehs).2, hlen⟩

end SglangRuntime.PageHash
