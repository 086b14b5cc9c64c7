import Mathlib.Data.List.Chain
import Mathlib.Data.List.TakeWhile
import SglangRuntime.MemCache.PageHash.Invariant

/-!
# Memory cache — the places that fill hashes

None of them raises, and what they set is wanted.  A hash is computed only below a parent that holds
its own (`computeNodeHashValues_eq`); event hashes are filled from the lowest ancestor that has them
(`computeNodeEventHashValues_spec`); the backfill reaches a node after its parent
(`backfillMissingHashValues_spec`).
-/

namespace SglangRuntime.PageHash

open Foundation Foundation.Trie List Option

variable {Digest : Type} {c : HashConfig Digest} {T T' T'' : HashTree Digest} {i j p q : NodeId}
  {k : RadixKey} {seed : Option Digest} {hs : List Digest} {salt : String}

/-- Lists are only added. -/
structure Fills (T T' : HashTree Digest) : Prop where
  shape : SameShape T T'
  hash : ∀ j, hashOf T j ≠ none → hashOf T' j ≠ none

theorem Fills.refl (T : HashTree Digest) : Fills T T := ⟨.refl T, fun _ => id⟩

theorem Fills.trans (h : Fills T T') (h' : Fills T' T'') : Fills T T'' :=
  ⟨h.shape.trans h'.shape, fun j e => h'.hash j (h.hash j e)⟩

theorem Fills.allHashed (h : Fills T T') (hall : AllHashed T) : AllHashed T' := fun j hj hr =>
  h.hash j (hall j (h.shape.live.mp hj) (by rwa [← h.shape.root]))

theorem fills_setHash (hi : T.Live i) : Fills T (setHash T i hs) where
  shape := sameShape_setHash
  hash := fun j e => by
    by_cases hji : j = i
    · rw [hji, hashOf_setHash_self hi]
      exact some_ne_none _
    · rwa [hashOf_setHash, if_neg hji]

/-! ### Page hashes -/

section

variable (h : Right c T)
include h

section

variable (hp : T.parentOf i = some p)
include hp

section

variable (hparent : p = T.root ∨ hashOf T p ≠ none)
include hparent

theorem parentHash_eq : parentHash T i = digestAt c T none p := by
  obtain ⟨k, hk⟩ := (h.wf.parent_live hp).key
  by_cases hr : p = T.root
  · subst hr
    rw [digestAt_root h.wf, parentHash, hp]
    simp [h.root_hash, hk]
  · obtain ⟨hs, ehs⟩ := ne_none_iff_exists'.mp (hparent.resolve_left hr)
    obtain ⟨q, hq⟩ := h.wf.below (h.wf.parent_live hp) hr
    have hpos : 0 < k.len := by simpa using (h.wf.paged hr hk).1
    rw [← getLast?_wanted h.wf hq.parent, ← h.hash p hs hr ehs, parentHash, hp]
    simp [ehs, hk, hpos]

/-- **A hash computed below a parent that holds its own is the wanted one.** -/
theorem computeNodeHashValues_eq :
    computeNodeHashValues c T i = some (wanted c T none i) := by
  obtain ⟨k, hk⟩ := (live_of_parentOf hp).key
  rw [computeNodeHashValues, hk, map_some, parentHash_eq h hp hparent, getHashStr,
    wanted_cons h.wf hp hk]

theorem ensureHash_spec :
    ∃ T', ensureHash c T i = some T' ∧ Right c T' ∧ Fills T T' ∧
      hashOf T' i = some (wanted c T none i) := by
  rw [ensureHash]
  cases hh : hashOf T i with
  | some hs =>
    exact ⟨T, rfl, h, .refl T, by rw [hh, h.hash i hs (h.wf.ne_root_of_parentOf hp) hh]⟩
  | none =>
    have hi := live_of_parentOf hp
    rw [computeNodeHashValues_eq h hp hparent]
    exact ⟨_, rfl, h.setHash hp, fills_setHash hi, hashOf_setHash_self hi⟩

/-! ### Event hashes -/

end

end

theorem saltOf_of_mem_path (hi : T.Live i) (hj : j ∈ T.path i) :
    saltOf T j = saltOf T i := by
  have hl := h.wf.isPath hi
  generalize T.path i = l at hl hj
  induction hl with
  | root => cases hj
  | @cons i p l hr hp hl ih =>
    rcases mem_cons.mp hj with rfl | hj
    · rfl
    have hne : p ≠ T.root := by
      rintro rfl
      cases hl.det .root
      cases hj
    rw [ih (h.wf.parent_live hp) hj, saltOf_eq, saltOf_eq, h.namespaces i p hp hne]

end

theorem isChain_path {l : List NodeId} (hl : T.IsPath i l) :
    (l ++ [T.root]).IsChain fun a b => T.parentOf a = some b := by
  induction hl with
  | root => simp
  | @cons i p l hr hp hl ih =>
    cases hl with
    | root => simpa using hp
    | cons _ _ _ => exact isChain_cons_cons.mpr ⟨hp, ih⟩

section

variable (h : Right c T)
include h

/-- **The last loop fills the nodes from the top down.** -/
theorem fillEventHashes_spec {l : List NodeId} {prior : Digest}
    (hchain : (q :: l).IsChain fun a b => T.parentOf b = some a)
    (hsalt : ∀ j ∈ l, saltOf T j = some salt) (hq : q = T.root ∨ eventHashOf T q ≠ none)
    (hprior : digestAt c T (some (c.saltHash salt)) q = some prior) :
    ∃ T', fillEventHashes c l prior T = some T' ∧ Right c T' ∧ Fills T T' ∧
      (∀ j, hashOf T' j = hashOf T j) ∧ (∀ j, eventHashOf T j ≠ none → eventHashOf T' j ≠ none) ∧
      ∀ j ∈ l, eventHashOf T' j ≠ none := by
  induction l generalizing q prior T with
  | nil => exact ⟨T, rfl, h, .refl T, fun _ => rfl, fun _ => id, fun _ hj => nomatch hj⟩
  | cons i l ih =>
    obtain ⟨hp, hchain⟩ := isChain_cons_cons.mp hchain
    have hi := live_of_parentOf hp
    obtain ⟨k, hk⟩ := hi.key
    have hw : getHashStr c k (some prior) = wanted c T (some (c.saltHash salt)) i := by
      rw [wanted_cons h.wf hp hk, hprior, getHashStr]
    have hright := h.setEventHash hp (hsalt i mem_cons_self) hq
    obtain ⟨prior', hprior'⟩ : ∃ d, digestAt c T (some (c.saltHash salt)) i = some d :=
      digestAfter_some _ _ _
    have hlast : (wanted c T (some (c.saltHash salt)) i).getLast? = some prior' :=
      (getLast?_wanted h.wf hp).trans hprior'
    have hshape : SameShape T (setEventHash T i (wanted c T (some (c.saltHash salt)) i)) :=
      sameShape_setEventHash
    have hself : eventHashOf (setEventHash T i (wanted c T (some (c.saltHash salt)) i)) i = some _ :=
      eventHashOf_setEventHash_self hi
    obtain ⟨T', e, hr, hf, hhash, hkeep, hset⟩ := ih hright
      (hchain.imp fun a b hab => (hshape.parentOf b).trans hab)
      (fun j hj => (sameShape_saltOf hshape).trans (hsalt j (mem_cons_of_mem _ hj)))
      (.inr (by rw [hself]; exact some_ne_none _))
      ((digestAt_congr (hshape.spellTo h.wf hi)).trans hprior')
    have hkeep₁ : ∀ j, eventHashOf T j ≠ none →
        eventHashOf (setEventHash T i (wanted c T (some (c.saltHash salt)) i)) j ≠ none := by
      intro j hj
      by_cases hji : j = i
      · rw [hji, hself]
        exact some_ne_none _
      · rwa [eventHashOf_setEventHash, if_neg hji]
    refine ⟨T', ?_, hr, ?_, fun j => (hhash j).trans hashOf_setEventHash,
      fun j hj => hkeep j (hkeep₁ j hj), ?_⟩
    · rw [fillEventHashes, hk]
      simp only [bind_eq_bind, bind_some, hw, hlast, getD_some]
      exact e
    · exact Fills.trans ⟨hshape, fun j hj => by rwa [hashOf_setEventHash]⟩ hf
    · intro j hj
      rcases mem_cons.mp hj with rfl | hj
      · exact hkeep j (by rw [hself]; exact some_ne_none _)
      · exact hset j hj

section

variable (hp : T.parentOf i = some p)
include hp

/-- `compute_node_event_hash_values` fills the path of the node. -/
theorem computeNodeEventHashValues_spec (hsalt : saltOf T i = some salt) :
    ∃ T' hs, computeNodeEventHashValues c T i salt = some (T', hs) ∧ Right c T' ∧ Fills T T' ∧
      (∀ j, hashOf T' j = hashOf T j) ∧ eventHashOf T' i = some hs := by
  have hi := live_of_parentOf hp
  rw [computeNodeEventHashValues]
  cases he : eventHashOf T i with
  | some hs => exact ⟨T, hs, rfl, h, .refl T, fun _ => rfl, he⟩
  | none =>
    have hpath := h.wf.isPath hi
    have hsplit : (T.path i).takeWhile (fun j => eventHashOf T j = none) ++
        (T.path i).dropWhile (fun j => eventHashOf T j = none) = T.path i :=
      takeWhile_append_dropWhile
    have hself : i ∈ (T.path i).takeWhile (fun j => eventHashOf T j = none) := by
      rw [h.wf.path_cons hp, takeWhile_cons_of_pos (by simpa using he)]
      exact mem_cons_self
    have hsalts : ∀ j ∈ T.path i, saltOf T j = some salt := fun j hj =>
      (saltOf_of_mem_path h hi hj).trans hsalt
    have hchain := isChain_path hpath
    rw [← hsplit] at hchain hsalts
    have hfirst : ∀ j, ((T.path i).dropWhile (fun j => eventHashOf T j = none)).head? = some j →
        eventHashOf T j ≠ none := fun j hj hn => by
      have := head?_dropWhile_not (fun j => decide (eventHashOf T j = none)) (T.path i)
      rw [hj] at this
      simp [hn] at this
    generalize (T.path i).takeWhile (fun j => eventHashOf T j = none) = missing at *
    generalize (T.path i).dropWhile (fun j => eventHashOf T j = none) = above at *
    have hguard : (∀ j ∈ missing, saltOf T j = some salt) ∧
        ∀ j, above.head? = some j → saltOf T j = some salt :=
      ⟨fun j hj => hsalts j (mem_append_left _ hj),
        fun j hj => hsalts j (mem_append_right _ (mem_of_head? hj))⟩
    rw [if_pos hguard]
    -- the node from which the hashes go on, the root if no ancestor holds any
    obtain ⟨q, prior, hq, hdig, hpre, hprior⟩ : ∃ q prior, (q = T.root ∨ eventHashOf T q ≠ none) ∧
        digestAt c T (some (c.saltHash salt)) q = some prior ∧
        (missing ++ [q]).IsChain (fun a b => T.parentOf a = some b) ∧
        ((above.head?.bind (eventHashOf T)).bind List.getLast?).getD (c.saltHash salt) = prior := by
      cases above with
      | nil =>
        exact ⟨T.root, c.saltHash salt, .inl rfl, digestAt_root h.wf, by simpa using hchain, rfl⟩
      | cons q above =>
        have hne := hfirst q rfl
        obtain ⟨hs, ehs⟩ := ne_none_iff_exists'.mp hne
        have hmem : q ∈ missing ++ q :: above := mem_append_right _ mem_cons_self
        have hqr : q ≠ T.root := fun e => hpath.root_not_mem (by rw [← hsplit, ← e]; exact hmem)
        obtain ⟨s, hs₁, hw⟩ := h.event q hs hqr ehs
        obtain rfl : s = salt := Option.some.inj (hs₁.symm.trans (hguard.2 q rfl))
        obtain ⟨r, b⟩ := h.wf.below (live_of_eventHashOf ehs) hqr
        obtain ⟨prior, hprior⟩ : ∃ d, digestAt c T (some (c.saltHash s)) q = some d :=
          digestAfter_some _ _ _
        refine ⟨q, prior, .inr hne, hprior, ?_, ?_⟩
        · rw [append_assoc, cons_append, ← singleton_append,
            ← append_assoc] at hchain
          exact hchain.left_of_append
        · rw [head?_cons, bind_some, ehs, bind_some, hw,
            getLast?_wanted h.wf b.parent, hprior, getD_some]
    have hdown : (q :: missing.reverse).IsChain fun a b => T.parentOf b = some a := by
      rw [← reverse_concat', isChain_reverse]
      exact hpre
    obtain ⟨T', e, hr, hf, hhash, -, hset⟩ := fillEventHashes_spec h hdown
      (fun j hj => hguard.1 j (mem_reverse.mp hj)) hq hdig
    obtain ⟨hs, ehs⟩ := ne_none_iff_exists'.mp (hset i (mem_reverse.mpr hself))
    refine ⟨T', hs, ?_, hr, hf, hhash, ehs⟩
    simp only [hprior, e, bind_eq_bind, bind_some, ehs]
    rfl

/-- `_node_event_hash_values` of a node whose parent holds its hashes. -/
theorem nodeEventHashValues_spec (hparent : p = T.root ∨ hashOf T p ≠ none) :
    ∃ T' hs, nodeEventHashValues c T i = some (T', hs) ∧ Right c T' ∧ Fills T T' ∧
      hashOf T' i ≠ none ∧ (saltOf T i ≠ none → eventHashOf T' i ≠ none) ∧
      ∀ k, T.keyOf i = some k → hs.length = numPagesOf c.pageSize k.len := by
  have hi := live_of_parentOf hp
  obtain ⟨k, hk⟩ := hi.key
  obtain ⟨T₁, e₁, h₁, f₁, hset₁⟩ := ensureHash_spec h hp hparent
  have hp₁ : T₁.parentOf i = some p := (f₁.shape.parentOf i).trans hp
  have hk₁ : T₁.keyOf i = some k := (f₁.shape.keyOf i).trans hk
  have hlen : ∀ seed, (wanted c T₁ seed i).length = numPagesOf c.pageSize k.len := fun seed =>
    length_wanted h₁.wf hp₁ hk₁
  rw [nodeEventHashValues, e₁]
  simp only [bind_eq_bind, bind_some, hk₁, hk, Option.some.injEq, forall_eq']
  cases hsalt : k.cacheSalt with
  | none =>
    refine ⟨T₁, _, by rw [hset₁, map_some], h₁, f₁, ?_, fun hne => ?_, ?_⟩
    · rw [hset₁]
      exact some_ne_none _
    · rw [saltOf, hk, bind_some, hsalt] at hne
      exact absurd rfl hne
    · rw [← sameShape_wanted f₁.shape h.wf hi]
      exact hlen none
  | some salt =>
    have hs₁ : saltOf T₁ i = some salt := by rw [saltOf, hk₁, bind_some, hsalt]
    obtain ⟨T', hs, e, hr, hf, hhash, hev⟩ := computeNodeEventHashValues_spec h₁ hp₁ hs₁
    refine ⟨T', hs, e, hr, f₁.trans hf, ?_, fun _ => ?_, ?_⟩
    · rw [hhash, hset₁]
      exact some_ne_none _
    · rw [hev]
      exact some_ne_none _
    · have hir : i ≠ T'.root := hr.wf.ne_root_of_parentOf ((hf.shape.parentOf i).trans hp₁)
      obtain ⟨s, -, hw⟩ := hr.event i hs hir hev
      rw [hw, sameShape_wanted hf.shape h₁.wf (live_of_parentOf hp₁)]
      exact hlen _

/-- After `_node_event_hash_values`, `_parent_block_hash` finds what it needs. -/
theorem parentBlockHash_isSome
    (hev : saltOf T i ≠ none → eventHashOf T i ≠ none) : (parentBlockHash T i).isSome := by
  rw [parentBlockHash, hp, bind_eq_bind, bind_some]
  split_ifs with hr
  · rfl
  cases hs : saltOf T i with
  | none => rfl
  | some s =>
    have hne := h.event_up i p hp hr (hev (by rw [hs]; exact some_ne_none _))
    obtain ⟨hs, ehs⟩ := ne_none_iff_exists'.mp hne
    rw [ehs]
    rfl

/-- **`record_store` does not raise**, and adds hashes. -/
theorem recordStore_spec (hparent : c.enableKvCacheEvents → p = T.root ∨ hashOf T p ≠ none) :
    ∃ T', recordStore c T i = some T' ∧ Right c T' ∧ Fills T T' ∧
      (c.enableKvCacheEvents → hashOf T' i ≠ none) := by
  rw [recordStore]
  split_ifs with hen
  · obtain ⟨k, hk⟩ := (live_of_parentOf hp).key
    obtain ⟨T', hs, e, hr, hf, hset, hev, hlen⟩ := nodeEventHashValues_spec h hp (hparent hen)
    have hsalt : saltOf T' i = saltOf T i := sameShape_saltOf hf.shape
    obtain ⟨b, hb⟩ := isSome_iff_exists.mp (parentBlockHash_isSome hr
      ((hf.shape.parentOf i).trans hp) (by rwa [hsalt]))
    refine ⟨T', ?_, hr, hf, fun _ => hset⟩
    simp only [e, hb, bind_eq_bind, bind_some, (hf.shape.keyOf i).trans hk, hlen k hk,
      le_refl, if_true]
  · exact ⟨T, rfl, h, .refl T, fun he => absurd he hen⟩

theorem recordRemove_spec (hparent : c.enableKvCacheEvents → p = T.root ∨ hashOf T p ≠ none) :
    ∃ T', recordRemove c T i = some T' ∧ Right c T' ∧ Fills T T' := by
  rw [recordRemove]
  split_ifs with hen
  · obtain ⟨k, hk⟩ := (live_of_parentOf hp).key
    obtain ⟨T', hs, e, hr, hf, -, -, hlen⟩ := nodeEventHashValues_spec h hp (hparent hen)
    refine ⟨T', ?_, hr, hf⟩
    simp only [e, bind_eq_bind, bind_some, (hf.shape.keyOf i).trans hk, hlen k hk,
      le_refl, if_true]
  · exact ⟨T, rfl, h, .refl T⟩

/-! ### Backfill -/

end

/-- **The backfill reaches every node, each after its parent.** -/
theorem backfillMissingHashValues_spec :
    ∃ T', backfillMissingHashValues c T = some T' ∧ Right c T' ∧ SameShape T T' ∧ AllHashed T' := by
  -- over the nodes popped so far
  have key : ∀ b a T₁, T.popOrder T.counter [T.root] = a ++ b → Right c T₁ → Fills T T₁ →
      (∀ j ∈ a, j ≠ T.root → hashOf T₁ j ≠ none) →
      ∃ T', b.foldlM (backfillNode c) T₁ = some T' ∧ Right c T' ∧ Fills T T' ∧
        ∀ j ∈ a ++ b, j ≠ T.root → hashOf T' j ≠ none := by
    intro b
    induction b with
    | nil => exact fun a T₁ _ hr hf hall => ⟨T₁, rfl, hr, hf, by rwa [append_nil]⟩
    | cons i b ih =>
      intro a T₁ e hr hf hall
      obtain ⟨hi, hroot⟩ := h.wf.popOrder_parents e
      obtain ⟨T₂, e₂, hr₂, hf₂, hset⟩ : ∃ T₂, backfillNode c T₁ i = some T₂ ∧ Right c T₂ ∧
          Fills T₁ T₂ ∧ (i ≠ T.root → hashOf T₂ i ≠ none) := by
        rw [backfillNode, hf.shape.root]
        split_ifs with hc
        · obtain ⟨p, hp, hpa⟩ := hroot.resolve_left hc.1
          have hp₁ := (hf.shape.parentOf i).trans hp
          have hpar : p = T₁.root ∨ hashOf T₁ p ≠ none := by
            rw [hf.shape.root]
            exact or_iff_not_imp_left.mpr (hall p hpa)
          rw [computeNodeHashValues_eq hr hp₁ hpar]
          refine ⟨_, rfl, hr.setHash hp₁, fills_setHash (live_of_parentOf hp₁), fun _ => ?_⟩
          rw [hashOf_setHash_self (live_of_parentOf hp₁)]
          exact some_ne_none _
        · exact ⟨T₁, rfl, hr, .refl T₁, fun hir hn => hc ⟨hir, hn⟩⟩
      obtain ⟨T', e', hr', hf', hall'⟩ := ih (a ++ [i]) T₂ (by rw [e]; simp) hr₂ (hf.trans hf₂) (by
        intro j hj hjr
        rcases mem_append.mp hj with hj | hj
        · exact hf₂.hash j (hall j hj hjr)
        · rw [mem_singleton.mp hj] at hjr ⊢
          exact hset hjr)
      refine ⟨T', ?_, hr', hf', by simpa using hall'⟩
      rw [foldlM_cons, e₂]
      exact e'
  obtain ⟨T', e, hr, hf, hall⟩ := key _ [] T rfl h (.refl T) (fun j hj => nomatch hj)
  refine ⟨T', e, hr, hf.shape, fun j hj hjr => hall j ?_ (by rwa [← hf.shape.root])⟩
  exact h.wf.popOrder_complete (hf.shape.live.mp hj)

end

end SglangRuntime.PageHash
