import SglangRuntime.MemCache.Session.Operations

/-!
# Memory cache — session references over whole runs

`run_coverage`: whatever sessions register and release while nodes are added, split and deleted, the
counts of both components are those of the registered leaves, no assertion fires, and once all
sessions are released nothing is left of them in the tree.
-/

namespace SglangRuntime.Session

open Foundation Foundation.Trie List Function

variable {c : Config} {st st' : State} {T T' : Tree} {ct : Component} {s : Refs} {leaf i j : NodeId}

/-! ### The tree changes -/

/-- The path to `leaf` is as before. -/
structure SamePath (c : CoreConfig) (T T' : Tree) (leaf : NodeId) : Prop where
  root : T'.root = T.root
  path : T'.path leaf = T.path leaf
  spell : ∀ j, j = T.root ∨ j = leaf ∨ j ∈ T.path leaf → T'.spellTo c.ops j = T.spellTo c.ops j
  key : ∀ j ∈ T.path leaf, T'.keyOf j = T.keyOf j

theorem live_of_path {c : CoreConfig} (hwf : T.WF c.ops) (hl : T.Live leaf) {j : NodeId}
    (hj : j = T.root ∨ j = leaf ∨ j ∈ T.path leaf) : T.Live j := by
  rcases hj with rfl | rfl | hj
  · exact hwf.root_live
  · exact hl
  · exact (hwf.isPath hl).live_of_mem hj

theorem SamePath.coversNode_iff {c : CoreConfig} (h : SamePath c T T' leaf) (n : Option Nat) :
    CoversNode c T' ct n leaf j ↔ CoversNode c T ct n leaf j := by
  cases ct with
  | full =>
    change j ∈ T'.path leaf ↔ j ∈ T.path leaf
    rw [h.path]
  | swa =>
    rw [CoversNode, CoversNode, InSpan, InSpan, h.path]
    refine and_congr_right fun hj => ?_
    rw [depth, depth, h.spell leaf (.inr (.inl rfl)), h.spell j (.inr (.inr hj)), segLen,
      h.key j hj]
    rfl

/-- The recorded lengths still end at nodes. -/
theorem Exact.recorded_of_reaches {c : CoreConfig} (h : Exact c T ct s.leaves s.sessionRef s.coveredLen)
    (hr : ∀ q ∈ s.leaves, ∀ n, T.Reaches c.ops q.2 n → T'.Reaches c.ops q.2 n) (e : ct = .swa)
    (q : SessionId × NodeId) : if q ∈ s.leaves then
      ∃ n, s.coveredLen q = some n ∧ T'.Reaches c.ops q.2 n else s.coveredLen q = none := by
  have hrec := h.recorded e q
  split_ifs at hrec ⊢ with hq
  · obtain ⟨n, hn, hreach⟩ := hrec
    exact ⟨n, hn, hr q hq n hreach⟩
  · exact hrec

/-- The invariant of a component, when the paths to its leaves stay and the counts fit the nodes. -/
theorem RefsInv.of_samePath {c : CoreConfig} {ref : NodeId → Int}
    {ids : NodeId → Option (Finset SessionId)} (h : RefsInv c T ct s) (hp : ∀ q ∈ s.leaves, SamePath c T T' q.2 ∧ T'.Live q.2)
    (href : ∀ i, T'.Live i → ref i = coverage c T ct s.leaves s.coveredLen i)
    (hm : Marked { s with sessionRef := ref, sessionIds := ids }) :
    RefsInv c T' ct { s with sessionRef := ref, sessionIds := ids } := by
  refine ⟨⟨fun q hq => ?_, fun i hi => ?_, fun e q => ?_⟩, hm⟩
  · obtain ⟨hs, hl⟩ := hp q hq
    exact ⟨hl, hs.root ▸ (h.exact.live q hq).2⟩
  · refine (href i hi).trans (congrArg _ (coverage_congr fun q hq => ?_))
    exact ((hp q hq).1.coversNode_iff _).symm
  · refine h.exact.recorded_of_reaches (fun q hq n hr => ?_) e q
    obtain ⟨hs, -⟩ := hp q hq
    exact hr.congr hs.root hs.path hs.spell

section Tree

variable {c : CoreConfig} (hwf : T.WF c.ops) (h : RefsInv c T ct s) {d : ChildKey} {k : RadixKey}

include hwf h

theorem RefsInv.touch (hs : T.SameShape T') : RefsInv c T' ct s := by
  refine h.of_samePath (fun q hq => ?_) (fun i hi => h.exact.count i (hs.live.mp hi)) h.marked
  have hl := (h.exact.live q hq).1
  exact ⟨⟨hs.root, hs.path hwf hl, fun j hj => hs.spellTo hwf (live_of_path hwf hl hj),
    fun j _ => hs.keyOf j⟩, hs.live.mpr hl⟩

theorem Marked.newNode (ref : Int) : Marked (s.newNode T.counter ref) := by
  refine ⟨fun σ i => ?_, fun i => ?_⟩
  · by_cases hi : i = T.counter
    · subst hi
      have hno : (σ, T.counter) ∉ s.leaves := fun hm => hwf.fresh (h.exact.live _ hm).1
      simp [Refs.newNode, hno]
    · simpa [Refs.newNode, hi] using h.marked.mem_iff σ i
  · by_cases hi : i = T.counter
    · subst hi
      simp [Refs.newNode]
    · simpa [Refs.newNode, hi] using h.marked.nonempty i

/-- A new leaf is covered by nothing. -/
theorem RefsInv.addLeaf {p : NodeId} (ok : LeafOk c.ops T p d k)
    (a : UnifiedTreeNode) : RefsInv c (T.addLeaf p d k a) ct (s.newNode T.counter 0) := by
  have hpm := hwf.ne_counter ok.live
  refine h.of_samePath (fun q hq => ?_) (fun i hi => ?_) (Marked.newNode hwf h 0)
  · have hl := (h.exact.live q hq).1
    refine ⟨⟨rfl, hwf.path_addLeaf ok hl, fun j hj =>
      hwf.spellTo_addLeaf ok (live_of_path hwf hl hj), fun j hj => ?_⟩,
      (live_addLeaf hpm).mpr (.inr hl)⟩
    rw [keyOf_addLeaf hpm, if_neg (hwf.ne_counter (live_of_path hwf hl (.inr (.inr hj))))]
  · by_cases hi' : i = T.counter
    · subst hi'
      have hzero : coverage c T ct s.leaves s.coveredLen T.counter = 0 := by
        refine Finset.card_eq_zero.mpr (Finset.filter_eq_empty_iff.mpr fun q hq hc => ?_)
        have hmem : T.counter ∈ T.path q.2 := by
          cases ct with
          | full => exact hc
          | swa => exact hc.1
        exact hwf.fresh ((hwf.isPath (h.exact.live q hq).1).live_of_mem hmem)
      rw [hzero, update_self]
      rfl
    · rw [update_of_ne hi']
      exact h.exact.count i (((live_addLeaf hpm).mp hi).resolve_left hi')

/-- A leaf at which nothing is registered can go. -/
theorem RefsInv.removeLeaf (ok : RemoveOk c.ops T i d)
    (hno : ∀ σ, (σ, i) ∉ s.leaves) : RefsInv c (T.removeLeaf i d) ct s := by
  obtain ⟨p, b⟩ := hwf.below ok.live ok.ne_root
  refine h.of_samePath (fun q hq => ?_)
    (fun j hj => h.exact.count j (b.live_removeLeaf.mp hj).2) h.marked
  have hl := (h.exact.live q hq).1
  have hqi : q.2 ≠ i := fun e => hno q.1 (e ▸ hq)
  have hne : ∀ j, j = T.root ∨ j = q.2 ∨ j ∈ T.path q.2 → j ≠ i := by
    rintro j (rfl | rfl | hj) rfl
    · exact ok.ne_root rfl
    · exact hqi rfl
    · exact (hwf.isPath hl).not_mem_of_childless ok.childless hqi hj
  refine ⟨⟨root_removeLeaf, hwf.path_removeLeaf ok hl hqi,
    fun j hj => hwf.spellTo_removeLeaf ok (live_of_path hwf hl hj) (hne j hj), fun j hj => ?_⟩,
    b.live_removeLeaf.mpr ⟨hqi, hl⟩⟩
  rw [b.keyOf_removeLeaf, if_neg (hne j (.inr (.inr hj)))]

/-- **The new parent of a split is covered by what covers its child.** -/
theorem RefsInv.split {dTop dRest : ChildKey} {len : Nat}
    (ok : SplitOk c.ops T i dTop dRest len k) (top bottom : UnifiedTreeNode → UnifiedTreeNode) :
    RefsInv c (T.split c.ops i dTop dRest len top bottom) ct
      (s.newNode T.counter (s.sessionRef i)) := by
  obtain ⟨p, b⟩ := hwf.below ok.live ok.ne_root
  have hm := Marked.newNode hwf h (s.sessionRef i)
  have hreach : ct = .swa → ∀ q ∈ s.leaves, T.Reaches c.ops q.2 ((s.coveredLen q).getD 0) := by
    intro e q hq
    have := h.exact.recorded e q
    rw [if_pos hq] at this
    obtain ⟨n, hn, hr⟩ := this
    rw [hn]
    exact hr
  have hold : ∀ q ∈ s.leaves, ∀ j, T.Live j →
      (CoversNode c (T.split c.ops i dTop dRest len top bottom) ct (s.coveredLen q) q.2 j ↔
        CoversNode c T ct (s.coveredLen q) q.2 j) := by
    intro q hq j hj
    have hl := (h.exact.live q hq).1
    cases ct with
    | full =>
      change j ∈ (T.split c.ops i dTop dRest len top bottom).path q.2 ↔ j ∈ T.path q.2
      rw [hwf.path_split ok hl, mem_insertAbove]
      exact or_iff_left fun e => hwf.ne_counter hj e.1
    | swa => exact hwf.inSpan_split ok hl (hreach rfl q hq) hj
  have hnew : ∀ q ∈ s.leaves,
      (CoversNode c (T.split c.ops i dTop dRest len top bottom) ct (s.coveredLen q) q.2 T.counter ↔
        CoversNode c T ct (s.coveredLen q) q.2 i) := by
    intro q hq
    have hl := (h.exact.live q hq).1
    cases ct with
    | full =>
      change T.counter ∈ (T.split c.ops i dTop dRest len top bottom).path q.2 ↔ i ∈ T.path q.2
      rw [hwf.path_split ok hl, mem_insertAbove]
      have hfresh : T.counter ∉ T.path q.2 := fun hm => hwf.fresh ((hwf.isPath hl).live_of_mem hm)
      tauto
    | swa => exact hwf.inSpan_split_new ok hl _
  refine ⟨⟨fun q hq => ?_, fun j hj => ?_, fun e q => ?_⟩, hm⟩
  · have hq' := h.exact.live q hq
    exact ⟨b.live_split.mpr (.inr hq'.1), by rw [root_split]; exact hq'.2⟩
  · by_cases hjm : j = T.counter
    · subst hjm
      refine (update_self _ _ _).trans ((h.exact.count i ok.live).trans ?_)
      exact congrArg _ (coverage_congr fun q hq => (hnew q hq).symm)
    · have hjl := (b.live_split.mp hj).resolve_left hjm
      refine (update_of_ne hjm _ _).trans ((h.exact.count j hjl).trans ?_)
      exact congrArg _ (coverage_congr fun q hq => (hold q hq j hjl).symm)
  · exact h.exact.recorded_of_reaches
      (fun q hq n hr => hr.split hwf ok (h.exact.live q hq).1) e q

end Tree

/-! ### The loop over the components -/

theorem forComponents_spec (st : State) {f : Component → Refs → Option Refs} {Q : Component → Refs → Prop}
    {l : List Component} (hnd : l.Nodup)
    (hf : ∀ ct ∈ l, ∃ s', f ct (st.refs ct) = some s' ∧ Q ct s')
    (hno : ∀ ct ∉ l, Q ct (st.refs ct)) :
    ∃ refs', st.forComponents f l = some { st with refs := refs' } ∧
      (∀ ct, Q ct (refs' ct)) ∧ ∀ ct ∉ l, refs' ct = st.refs ct := by
  induction l generalizing st with
  | nil => exact ⟨st.refs, rfl, fun ct => hno ct not_mem_nil, fun _ _ => rfl⟩
  | cons ct l ih =>
    obtain ⟨hct, hnd⟩ := nodup_cons.mp hnd
    obtain ⟨s', e, hQ⟩ := hf ct mem_cons_self
    obtain ⟨refs', e', hall, hout⟩ := ih { st with refs := update st.refs ct s' } hnd
      (fun ct' h' => by
        obtain ⟨s'', e'', hQ'⟩ := hf ct' (mem_cons_of_mem _ h')
        have hne : ct' ≠ ct := by rintro rfl; exact hct h'
        exact ⟨s'', by simp only [update_of_ne hne, e''], hQ'⟩)
      fun ct' h' => by
        rcases eq_or_ne ct' ct with rfl | hne
        · simpa only [update_self] using hQ
        · simpa only [update_of_ne hne] using hno ct' (by simp [hne, h'])
    refine ⟨refs', ?_, hall, fun ct' h' => ?_⟩
    · simp only [State.forComponents, e, Option.bind_eq_bind, Option.bind_some, e']
    · rw [mem_cons, not_or] at h'
      rw [hout ct' h'.2]
      exact update_of_ne h'.1 _ _

theorem nodup_components (c : Config) : c.components.Nodup := by
  unfold Config.components
  split_ifs <;> decide

/-! ### The invariant -/

structure Inv (c : Config) (st : State) : Prop where
  wf : st.tree.WF c.core.ops
  refs : ∀ ct, RefsInv c.core st.tree ct (st.refs ct)
  /-- only open sessions have leaves -/
  opened : ∀ ct, ∀ q ∈ (st.refs ct).leaves, st.sessionGenerations q.1 ≠ none
  closed : ∀ σ ∈ st.closedSessionIds, st.sessionGenerations σ = none
  closed_nodup : st.closedSessionIds.Nodup
  /-- a component that the tree does not have has no leaves -/
  absent : ∀ ct ∉ c.components, (st.refs ct).leaves = ∅

theorem inv_init (c : Config) : Inv c State.init := by
  have hwf : State.init.tree.WF c.core.ops := wf_empty _ _ _
  refine ⟨hwf, fun ct => ⟨⟨fun q hq => ?_, fun i _ => ?_, fun _ q => ?_⟩, ⟨fun σ i => ?_, fun i => ?_⟩⟩,
    fun ct q hq => ?_, fun σ hσ => ?_, nodup_nil, fun ct _ => rfl⟩
  · exact absurd hq (Finset.notMem_empty q)
  · rfl
  · rfl
  · simp [State.init, Refs.init]
  · simp [State.init, Refs.init]
  · exact absurd hq (Finset.notMem_empty q)
  · rfl

namespace Inv

/-- The tree and the nodes' data change, but no registration. -/
theorem of_refs {refs' : Component → Refs} (h : Inv c st) (hwf : T'.WF c.core.ops)
    (hr : ∀ ct, RefsInv c.core T' ct (refs' ct))
    (hl : ∀ ct, (refs' ct).leaves = (st.refs ct).leaves) :
    Inv c { st with tree := T', refs := refs' } :=
  ⟨hwf, hr, fun ct q hq => h.opened ct q (hl ct ▸ hq), h.closed, h.closed_nodup,
    fun ct hct => (hl ct).trans (h.absent ct hct)⟩

theorem openRadixSession (h : Inv c st) (σ : SessionId) : Inv c (openRadixSession σ st) := by
  refine ⟨h.wf, h.refs, fun ct q hq => ?_, fun τ hτ => ?_, h.closed_nodup.erase σ, h.absent⟩
  · by_cases e : q.1 = σ
    · simp [Session.openRadixSession, e]
    · simpa [Session.openRadixSession, e] using h.opened ct q hq
  · obtain ⟨hne, hmem⟩ := h.closed_nodup.mem_erase_iff.mp hτ
    simpa [Session.openRadixSession, hne] using h.closed τ hmem

/-- `register_session_ref` of a request whose last node is in the tree. -/
theorem registerSessionRef (h : Inv c st) {req : Req} (hl : st.tree.Live req.lastNode)
    (validator : Component → NodeId → Bool) :
    ∃ st', registerSessionRef c req validator st = some st' ∧ Inv c st' := by
  unfold Session.registerSessionRef
  split
  · exact ⟨st, rfl, h⟩
  split
  · exact ⟨st, rfl, h⟩
  split
  · exact ⟨st, rfl, h⟩
  split
  · exact ⟨st, rfl, h⟩
  rename_i σ _ hopen _ generation hgen
  split
  · exact ⟨st, rfl, h⟩
  have hreg : ∀ ct ∈ c.components, ∃ s', registerSessionLeaf c.core st.tree ct
      c.enableSessionRadixCache σ (findReusableSessionLeaf st.tree (validator ct) req.lastNode)
        (st.refs ct) = some s' ∧
      (RefsInv c.core st.tree ct s' ∧ ∀ q ∈ s'.leaves, q.1 = σ ∨ q ∈ (st.refs ct).leaves) :=
    fun ct _ => registerSessionLeaf_spec h.wf (h.refs ct) _ σ fun i hi =>
      (h.wf.isPath hl).live_of_mem (mem_of_find?_eq_some hi)
  obtain ⟨refs', e, hall, hout⟩ := forComponents_spec st (nodup_components c) hreg
    fun ct _ => ⟨h.refs ct, fun q hq => .inr hq⟩
  refine ⟨_, e, h.wf, fun ct => (hall ct).1, fun ct q hq => ?_, h.closed, h.closed_nodup,
    fun ct hct => (congrArg Refs.leaves (hout ct hct)).trans (h.absent ct hct)⟩
  rcases (hall ct).2 q hq with e | hq
  · rw [e]
    exact fun hn => nomatch hgen.symm.trans hn
  · exact h.opened ct q hq

omit c in
theorem rememberClosedSession_spec (h : st.closedSessionIds.Nodup) (σ : SessionId) :
    ∃ closed, rememberClosedSession σ st = { st with closedSessionIds := closed } ∧
      (∀ τ ∈ closed, τ = σ ∨ τ ∈ st.closedSessionIds) ∧ closed.Nodup := by
  refine ⟨_, rfl, ?_⟩
  constructor
  · intro τ hτ
    rcases mem_append.mp (mem_of_mem_drop hτ) with hτ | hτ
    · exact .inr (mem_of_mem_erase hτ)
    · exact .inl (mem_singleton.mp hτ)
  · refine List.Nodup.sublist (drop_sublist _ _) ?_
    refine nodup_append.mpr ⟨h.erase σ, nodup_singleton σ, ?_⟩
    rintro τ hτ _ hσ rfl
    exact (h.mem_erase_iff.mp hτ).1 (mem_singleton.mp hσ)

/-- `release_radix_session`. -/
theorem releaseRadixSession (h : Inv c st) {σ : SessionId} {leaves : Component → List NodeId}
    (hl : ∀ ct, Enumerates (leaves ct) fun i => (σ, i) ∈ (st.refs ct).leaves) :
    ∃ st', releaseRadixSession c σ leaves st = some st' ∧ Inv c st' ∧
      (c.enableSessionRadixCache → st'.sessionGenerations σ = none) := by
  unfold Session.releaseRadixSession
  split
  · rename_i hskip
    refine ⟨st, rfl, h, fun henable => h.closed σ ?_⟩
    simpa [henable] using hskip
  obtain ⟨closed, hst, hclosed, hnodup⟩ := rememberClosedSession_spec h.closed_nodup σ
  rw [hst]
  have hrel : ∀ ct ∈ c.components, ∃ s', releaseSession c.core st.tree ct σ (leaves ct)
      (st.refs ct) = some s' ∧ (RefsInv c.core st.tree ct s' ∧
        ∀ q, q ∈ s'.leaves ↔ q ∈ (st.refs ct).leaves ∧ ¬ (q.1 = σ ∧ q.2 ∈ leaves ct)) :=
    fun ct _ => releaseSession_spec h.wf (h.refs ct) (hl ct).1 fun i hi => ((hl ct).2 i).mp hi
  obtain ⟨refs', e, hall, hout⟩ := forComponents_spec
    { st with
      closedSessionIds := closed
      sessionGenerations := update st.sessionGenerations σ none }
    (nodup_components c) hrel fun ct hct => ⟨h.refs ct, fun q => by simp [h.absent ct hct]⟩
  refine ⟨_, e, ⟨h.wf, fun ct => (hall ct).1, fun ct q hq => ?_, fun τ hτ => ?_, hnodup,
    fun ct hct => (congrArg Refs.leaves (hout ct hct)).trans (h.absent ct hct)⟩,
    fun _ => update_self _ _ _⟩
  · obtain ⟨hq, hno⟩ := ((hall ct).2 q).mp hq
    have hne : q.1 ≠ σ := fun e => hno ⟨e, ((hl ct).2 q.2).mpr (e ▸ hq)⟩
    change update st.sessionGenerations σ none q.1 ≠ none
    rw [update_of_ne hne]
    exact h.opened ct q hq
  · change update st.sessionGenerations σ none τ = none
    by_cases hτσ : τ = σ
    · rw [hτσ, update_self]
    · rw [update_of_ne hτσ]
      exact h.closed τ ((hclosed τ hτ).resolve_left hτσ)

/-- `_remove_leaf_from_parent`. -/
theorem removeLeaf (h : Inv c st) {d : ChildKey} (ok : RemoveOk c.core.ops st.tree i d)
    {ids : Component → List SessionId}
    (hids : ∀ ct, Enumerates (ids ct) fun σ => σ ∈ ((st.refs ct).sessionIds i).getD ∅)
    (validator : Component → SessionId → NodeId → Bool) :
    ∃ st', exec c st (.removeLeaf i d ids validator) = some st' ∧ Inv c st' := by
  have hmem : ∀ ct σ, σ ∈ ids ct ↔ (σ, i) ∈ (st.refs ct).leaves := fun ct σ => by
    rw [(hids ct).2, (h.refs ct).marked.mem_iff]
  have hdis : ∀ ct ∈ c.components, ∃ s', discardDeletedSessionLeaf c.core st.tree ct i (ids ct)
      (validator ct) (st.refs ct) = some s' ∧ (RefsInv c.core st.tree ct s' ∧
        (∀ τ, (τ, i) ∈ s'.leaves ↔ (τ, i) ∈ (st.refs ct).leaves ∧ τ ∉ ids ct) ∧
        ∀ q ∈ s'.leaves, q.1 ∈ ids ct ∨ q ∈ (st.refs ct).leaves) :=
    fun ct _ => discardDeletedSessionLeaf_spec h.wf (h.refs ct) (hids ct).1
      (fun σ hσ => (hmem ct σ).mp hσ) (validator ct)
  obtain ⟨refs', e, hall, hout⟩ := forComponents_spec st (nodup_components c) hdis
    fun ct hct => ⟨h.refs ct, fun τ => by simp [h.absent ct hct], fun q hq => .inr hq⟩
  refine ⟨{ st with tree := st.tree.removeLeaf i d, refs := refs' }, ?_,
    h.wf.removeLeaf ok, fun ct => ?_, fun ct q hq => ?_, h.closed, h.closed_nodup,
    fun ct hct => (congrArg Refs.leaves (hout ct hct)).trans (h.absent ct hct)⟩
  · simp only [exec, e, Option.bind_eq_bind, Option.bind_some]
    rfl
  · obtain ⟨hr, hnode, -⟩ := hall ct
    refine hr.removeLeaf h.wf ok fun σ hσ => ?_
    obtain ⟨hσ, hno⟩ := (hnode σ).mp hσ
    exact hno ((hmem ct σ).mpr hσ)
  · rcases (hall ct).2.2 q hq with hq | hq
    · exact h.opened ct (q.1, i) ((hmem ct q.1).mp hq)
    · exact h.opened ct q hq

/-- **Every step that the callers may take succeeds** and keeps the invariant. -/
theorem step (h : Inv c st) {e : Event} (he : Enabled c st e) :
    ∃ st', exec c st e = some st' ∧ Inv c st' := by
  cases e with
  | touch tree =>
    exact ⟨_, rfl, h.of_refs (he.wf h.wf) (fun ct => (h.refs ct).touch h.wf he) fun _ => rfl⟩
  | split i dTop dRest len =>
    obtain ⟨k, ok⟩ := he
    exact ⟨_, rfl, h.of_refs (h.wf.split ok) (fun ct => (h.refs ct).split h.wf ok _ _) fun _ => rfl⟩
  | addLeaf p d k a =>
    exact ⟨_, rfl, h.of_refs (h.wf.addLeaf he) (fun ct => (h.refs ct).addLeaf h.wf he a)
      fun _ => rfl⟩
  | removeLeaf i d ids validator => exact h.removeLeaf he.1 he.2 validator
  | openSession σ => exact ⟨_, rfl, h.openRadixSession σ⟩
  | ensureGeneration σ =>
    refine ⟨_, rfl, ?_⟩
    unfold ensureSessionGeneration
    split
    · exact h
    · exact h.openRadixSession σ
  | register req validator => exact h.registerSessionRef he validator
  | release σ leaves =>
    obtain ⟨st', e, h', -⟩ := h.releaseRadixSession he
    exact ⟨st', e, h'⟩

end Inv

theorem inv_of_run (h : Run c st) : Inv c st := by
  induction h with
  | init => exact inv_init c
  | step _ he e ih =>
    obtain ⟨st₁, e₁, h₁⟩ := ih.step he
    cases e.symm.trans e₁
    exact h₁

/-- **Session coverage is exact.**  In every state of a run the Full count of a node is the number of
pairs of a session and a registered leaf with the node on the path of the leaf; the sliding-window
count is the number of those pairs whose recorded span contains the node; no assertion of the
coverage code fires in the next step; a release leaves its session without a generation, and if no
session has one, all counts are zero and no node has a marker. -/
theorem run_coverage (h : Run c st) : (∀ i, st.tree.Live i → (st.refs .full).sessionRef i =
      ((st.refs .full).leaves.filter fun q => i ∈ st.tree.path q.2).card) ∧
    ((∀ q ∈ (st.refs .swa).leaves, (st.refs .swa).coveredLen q ≠ none) ∧
      ∀ i, st.tree.Live i → (st.refs .swa).sessionRef i =
        ((st.refs .swa).leaves.filter fun q =>
          st.tree.InSpan c.core.ops q.2 (((st.refs .swa).coveredLen q).getD 0) i).card) ∧
    (∀ e, Enabled c st e → (exec c st e).isSome) ∧
    (∀ σ leaves st', Enabled c st (.release σ leaves) → c.enableSessionRadixCache = true →
      exec c st (.release σ leaves) = some st' → st'.sessionGenerations σ = none) ∧
    ((∀ σ, st.sessionGenerations σ = none) → ∀ ct i, st.tree.Live i →
      (st.refs ct).sessionRef i = 0 ∧ (st.refs ct).sessionIds i = none) := by
  have hinv := inv_of_run h
  refine ⟨fun i hi => (hinv.refs .full).exact.count i hi, ⟨fun q hq => ?_,
    fun i hi => (hinv.refs .swa).exact.count i hi⟩, fun e he => ?_,
    fun σ leaves st' he henable e => ?_, fun hrel ct i hi => ?_⟩
  · have := (hinv.refs .swa).exact.recorded rfl q
    rw [if_pos hq] at this
    obtain ⟨n, hn, -⟩ := this
    exact fun e => nomatch hn.symm.trans e
  · obtain ⟨st', e', -⟩ := hinv.step he
    rw [e']
    rfl
  · obtain ⟨st₁, e₁, -, hgen⟩ := hinv.releaseRadixSession he
    cases e₁.symm.trans e
    exact hgen henable
  · have hempty : (st.refs ct).leaves = ∅ :=
      Finset.eq_empty_of_forall_notMem fun q hq => hinv.opened ct q hq (hrel q.1)
    refine ⟨?_, ?_⟩
    · rw [(hinv.refs ct).exact.count i hi, coverage, hempty]
      rfl
    rcases hids : (st.refs ct).sessionIds i with - | ids
    · rfl
    have hne : ids ≠ ∅ := by
      rintro rfl
      exact (hinv.refs ct).marked.nonempty i hids
    obtain ⟨σ, hσ⟩ := Finset.nonempty_iff_ne_empty.mpr hne
    have : (σ, i) ∈ (st.refs ct).leaves :=
      ((hinv.refs ct).marked.mem_iff σ i).mpr (by rw [hids]; exact hσ)
    rw [hempty] at this
    exact absurd this (Finset.notMem_empty _)

/-- A tree with a sliding window of one token. -/
def windowedTree : Config where
  core := {
    pageSize := 1, pageSize_pos := Nat.one_pos, hasSwa := true, hasMamba := false
    slidingWindowSize := 1, window_pos := Nat.one_pos }
  enableSessionRadixCache := true

/-- An open session, and a cached path of three tokens. -/
def cachedPath : State :=
  { openRadixSession "s" State.init with
    tree := State.init.tree.addLeaf 0 (.plain (.int 4))
      ⟨[4, 5, 6], none, none, false, none⟩ .new
    refs := fun ct => (State.init.refs ct).newNode 1 0 }

/-- A session that has registered a leaf. -/
theorem run_coverage_registered : ∃ st, Run windowedTree st ∧ (st.refs .swa).sessionRef 1 = 1 ∧
    ∀ e, Enabled windowedTree st e → (exec windowedTree st e).isSome := by
  have hleaf : LeafOk windowedTree.core.ops State.init.tree 0 (.plain (.int 4))
      ⟨[4, 5, 6], none, none, false, none⟩ :=
    ⟨by decide, by decide, by decide, by decide, by decide⟩
  have hpath : Run windowedTree cachedPath :=
    (Run.init.step (e := .openSession "s") trivial rfl).step
      (e := .addLeaf 0 (.plain (.int 4)) ⟨[4, 5, 6], none, none, false, none⟩ .new) hleaf rfl
  obtain ⟨st, hst, href⟩ : ∃ st ∈ exec windowedTree cachedPath
      (.register ⟨some "s", none, some 1, 1⟩ fun _ _ => true),
        (st.refs .swa).sessionRef 1 = 1 := by
    decide +kernel
  have hrun := hpath.step (e := .register ⟨some "s", none, some 1, 1⟩ fun _ _ => true)
    (show cachedPath.tree.Live 1 by decide) hst
  exact ⟨st, hrun, href, (run_coverage hrun).2.2.1⟩

end SglangRuntime.Session
