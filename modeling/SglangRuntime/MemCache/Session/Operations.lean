import Mathlib.Data.List.TakeWhile
import SglangRuntime.MemCache.Session.Coverage

/-!
# Memory cache — the operations on session leaves

No assertion of the coverage code fires, and what a component counts follows what it has registered:
`registerSessionLeaf_spec`, `releaseSession_spec` and `discardDeletedSessionLeaf_spec` keep the
invariant of a component (`RefsInv`) and say which pairs are registered afterwards.
-/

namespace SglangRuntime.Session

open Foundation Foundation.Trie List Option

variable {c : CoreConfig} {T T' : Tree} {ct : Component} {P : Finset (SessionId × NodeId)}
  {s s' : Refs} {σ : SessionId} {leaf i j : NodeId}

/-- Only the counts and the covered lengths differ. -/
structure SameMarks (s s' : Refs) : Prop where
  leaves : s'.leaves = s.leaves
  sessionIds : s'.sessionIds = s.sessionIds

theorem SameMarks.trans {s'' : Refs} (h : SameMarks s s') (h' : SameMarks s' s'') :
    SameMarks s s'' :=
  ⟨h'.leaves.trans h.leaves, h'.sessionIds.trans h.sessionIds⟩

/-- The pairs with those of session `σ` at a node. -/
def addPair (σ : SessionId) (i : Option NodeId) (P : Finset (SessionId × NodeId)) :
    Finset (SessionId × NodeId) :=
  match i with
  | some i => insert (σ, i) P
  | none => P

def removePair (σ : SessionId) (i : Option NodeId) (P : Finset (SessionId × NodeId)) :
    Finset (SessionId × NodeId) :=
  match i with
  | some i => P.erase (σ, i)
  | none => P

/-! ### Coverage -/

section Coverage

variable (hwf : T.WF c.ops) {stop old : Option NodeId} {ref : NodeId → Int}

include hwf

/-- `_dec_session_coverage` of a registered leaf. -/
theorem decSessionCoverage_spec (h : Exact c T ct P s.sessionRef s.coveredLen)
    (hq : (σ, leaf) ∈ P) : ∃ s', decSessionCoverage c T ct σ leaf s = some s' ∧
      Exact c T ct (P.erase (σ, leaf)) s'.sessionRef s'.coveredLen ∧ SameMarks s s' := by
  obtain ⟨hl, hr⟩ := h.live _ hq
  have hpath := hwf.isPath hl
  have hrem := h.remove hq
  cases ct with
  | full =>
    have hpos : (-1 : Int) < 0 → ∀ i ∈ T.path leaf, 0 < s.sessionRef i := fun _ i hi =>
      h.pos hq (hpath.live_of_mem hi) hi
    refine ⟨{ s with sessionRef := bump (-1) (T.path leaf) s.sessionRef }, ?_, ?_, rfl, rfl⟩
    · rw [decSessionCoverage, addAlong_eq hpath.nodup hpos]
      rfl
    · exact (hrem.full_lens _).congr_ref fun i _ => bump_neg_one Iff.rfl
  | swa =>
    have hrec := h.recorded rfl (σ, leaf)
    rw [if_pos hq] at hrec
    obtain ⟨n, hn, hreach⟩ := hrec
    have hwin : ∀ i, i ∈ T.window c.ops n (T.path leaf) ↔
        CoversNode c T .swa (s.coveredLen (σ, leaf)) leaf i := fun i => by
      rw [hn]
      exact hwf.mem_window_iff hl hreach
    have hpos : (-1 : Int) < 0 → ∀ i ∈ T.window c.ops (n - 0) (T.path leaf),
        0 < s.sessionRef i := fun _ i hi =>
      h.pos hq (hpath.live_of_mem (window_subset _ hi)) ((hwin i).mp hi)
    have hlen : 0 + T.windowLen c.ops (n - 0) (T.path leaf) = n := by
      rw [Nat.zero_add, Nat.sub_zero, hreach.windowLen_eq hwf hl]
    refine ⟨{ s with
        sessionRef := bump (-1) (T.window c.ops n (T.path leaf)) s.sessionRef
        coveredLen := Function.update s.coveredLen (σ, leaf) none }, ?_, ?_, rfl, rfl⟩
    · simp only [decSessionCoverage, hn, bind_eq_bind, bind_some,
        walkSessionCoverage_eq hpath.nodup hpos, hlen, if_true]
      rfl
    · exact hrem.congr_ref fun i _ => bump_neg_one (hwin i)

/-- `_inc_session_coverage` of a leaf that is not registered. -/
theorem incSessionCoverage_spec (h : Exact c T .swa P s.sessionRef s.coveredLen)
    (hq : (σ, leaf) ∉ P) (hl : T.Live leaf) (hr : leaf ≠ T.root) :
    ∃ s', incSessionCoverage c T σ leaf s = some s' ∧
      Exact c T .swa (insert (σ, leaf) P) s'.sessionRef s'.coveredLen ∧ SameMarks s s' := by
  have hpath := hwf.isPath hl
  have hnone : s.coveredLen (σ, leaf) = none := by
    have := h.recorded rfl (σ, leaf)
    rwa [if_neg hq] at this
  have hspan : 0 < c.slidingWindowSize + c.pageSize := Nat.add_pos_left c.window_pos _
  have hreach := hwf.reaches_windowLen hl (c.slidingWindowSize + c.pageSize)
  have hpos := hwf.windowLen_pos hl hr hspan
  have hno : (1 : Int) < 0 → ∀ i ∈ T.window c.ops (c.slidingWindowSize + c.pageSize - 0)
      (T.path leaf), 0 < s.sessionRef i := fun hd => absurd hd (by decide)
  have hwin : ∀ i, i ∈ T.window c.ops (c.slidingWindowSize + c.pageSize - 0) (T.path leaf) ↔
      CoversNode c T .swa (some (T.windowLen c.ops (c.slidingWindowSize + c.pageSize)
        (T.path leaf))) leaf i := fun i => by
    rw [Nat.sub_zero, ← hwf.window_windowLen hl]
    exact hwf.mem_window_iff hl hreach
  refine ⟨{ s with
      sessionRef := bump 1 (T.window c.ops (c.slidingWindowSize + c.pageSize - 0) (T.path leaf))
        s.sessionRef
      coveredLen := Function.update s.coveredLen (σ, leaf)
        (some (T.windowLen c.ops (c.slidingWindowSize + c.pageSize) (T.path leaf))) },
    ?_, ?_, rfl, rfl⟩
  · simp only [incSessionCoverage, hnone, isSome_none, Bool.false_eq_true, if_false,
      bind_eq_bind, walkSessionCoverage_eq hpath.nodup hno,
      bind_some, Nat.zero_add, Nat.sub_zero, hpos, if_true]
  · exact (h.add hq hl hr fun _ => ⟨_, rfl, hreach⟩).congr_ref fun i _ => bump_one (hwin i)

/-- The part of a path up to one of its nodes. -/
theorem mem_pathTo (hl : T.Live leaf) (hs : ∀ a, stop = some a → a ∈ T.path leaf) :
    (pathTo T leaf stop).Nodup ∧
      (∀ i, i ∈ pathTo T leaf stop ↔ i ∈ T.path leaf ∧ ∀ a, stop = some a → i ∉ T.path a) ∧
      ∀ a, stop = some a → ∀ i ∈ T.path a, i ∈ T.path leaf := by
  have hpath := hwf.isPath hl
  rcases stop with - | a
  · have hall : pathTo T leaf none = T.path leaf :=
      takeWhile_eq_self_iff.mpr fun i _ => by simp
    rw [hall]
    exact ⟨hpath.nodup, fun i => by simp, fun a e => nomatch e⟩
  obtain ⟨l₁, l₂, e, ha⟩ := hpath.of_mem (hs a rfl)
  have hnd := hpath.nodup
  rw [e] at hnd
  obtain ⟨h₁, h₂, hdis⟩ := nodup_append.mp hnd
  have hne : ∀ i ∈ l₁, i ≠ a := fun i hi e' => hdis i hi a mem_cons_self e'
  have hto : pathTo T leaf (some a) = l₁ := by
    rw [pathTo, e, takeWhile_append_of_pos (fun i hi => by simpa using hne i hi),
      takeWhile_cons_of_neg (by simp), append_nil]
  have hmem : ∀ i, i ∈ T.path a ↔ i ∈ a :: l₂ := fun i => by rw [hwf.path_eq ha]
  rw [hto]
  refine ⟨h₁, fun i => ?_, fun b hb i hi => ?_⟩
  · simp only [Option.some.injEq, forall_eq', hmem, e]
    constructor
    · exact fun hi => ⟨mem_append_left _ hi, fun hm => hdis i hi i hm rfl⟩
    · exact fun hi => (mem_append.mp hi.1).resolve_right hi.2
  · cases hb
    rw [e]
    exact mem_append_right _ ((hmem i).mp hi)

omit hwf in
/-- Along the part of a path up to a node, the counts change by the difference of the two paths. -/
theorem bump_pathTo {delta : Int}
    (hmem : j ∈ pathTo T leaf stop ↔ j ∈ T.path leaf ∧ ∀ a, stop = some a → j ∉ T.path a)
    (hsub : ∀ a, stop = some a → j ∈ T.path a → j ∈ T.path leaf) :
    bump delta (pathTo T leaf stop) ref j = ref j + delta * ((if j ∈ T.path leaf then 1 else 0) -
      if ∃ a, stop = some a ∧ j ∈ T.path a then 1 else 0) := by
  rw [bump]
  by_cases hs : ∃ a, stop = some a ∧ j ∈ T.path a
  · obtain ⟨a, ha, hj⟩ := hs
    rw [if_neg fun h => (hmem.mp h).2 a ha hj, if_pos (hsub a ha hj), if_pos ⟨a, ha, hj⟩]
    ring
  have hno : ∀ a, stop = some a → j ∉ T.path a := fun a ha hj => hs ⟨a, ha, hj⟩
  by_cases hj : j ∈ T.path leaf
  · rw [if_pos (hmem.mpr ⟨hj, hno⟩), if_pos hj, if_neg hs]
    ring
  · rw [if_neg fun h => hj (hmem.mp h).1, if_neg hj, if_neg hs]
    ring

omit hwf in
/-- The counts of the Full component after a move along a path. -/
theorem Exact.move_full {L : SessionId × NodeId → Option Nat}
    (h : Exact c T .full P ref L) {new : Option NodeId}
    (hnew : ∀ i, new = some i → (σ, i) ∉ P ∧ T.Live i ∧ i ≠ T.root)
    (hold : ∀ i, old = some i → (σ, i) ∈ P) :
    Exact c T .full (removePair σ old (addPair σ new P)) (fun j => ref j +
      (if ∃ i, new = some i ∧ j ∈ T.path i then 1 else 0) -
      (if ∃ i, old = some i ∧ j ∈ T.path i then 1 else 0)) L := by
  have hadd : Exact c T .full (addPair σ new P)
      (fun j => ref j + if ∃ i, new = some i ∧ j ∈ T.path i then 1 else 0) L := by
    rcases new with - | i
    · exact h.congr_ref fun j _ => by simp
    · obtain ⟨hq, hl, hr⟩ := hnew i rfl
      refine ((h.add (n := none) hq hl hr fun e => nomatch e).full_lens L).congr_ref fun j _ => ?_
      by_cases hj : j ∈ T.path i <;> simp [CoversNode, hj]
  rcases old with - | i
  · exact hadd.congr_ref fun j _ => by simp
  have hmem : (σ, i) ∈ addPair σ new P := by
    rcases new with - | i'
    · exact hold i rfl
    · exact Finset.mem_insert_of_mem (hold i rfl)
  refine ((hadd.remove hmem).full_lens L).congr_ref fun j _ => ?_
  by_cases hj : j ∈ T.path i <;> simp [CoversNode, hj]

/-- `_advance_session_coverage` from a registered ancestor to a new leaf. -/
theorem advanceSessionCoverage_spec (h : Exact c T ct P s.sessionRef s.coveredLen)
    (hq : (σ, leaf) ∉ P) (hl : T.Live leaf) (hr : leaf ≠ T.root)
    (hold : ∀ a, old = some a → (σ, a) ∈ P ∧ a ∈ T.path leaf) :
    ∃ s', advanceSessionCoverage c T ct σ leaf old s = some s' ∧
      Exact c T ct (removePair σ old (insert (σ, leaf) P)) s'.sessionRef s'.coveredLen ∧
      SameMarks s s' := by
  cases ct with
  | full =>
    obtain ⟨hnd, hmem, hsub⟩ := mem_pathTo hwf hl fun a ha => (hold a ha).2
    refine ⟨{ s with sessionRef := bump 1 (pathTo T leaf old) s.sessionRef }, ?_, ?_, rfl, rfl⟩
    · rw [advanceSessionCoverage, addAlong_eq hnd fun hd => absurd hd (by decide)]
      rfl
    have hnew : ∀ i, some leaf = some i → (σ, i) ∉ P ∧ T.Live i ∧ i ≠ T.root := by
      rintro i ⟨⟩
      exact ⟨hq, hl, hr⟩
    refine (h.move_full hnew fun a ha => (hold a ha).1).congr_ref fun j _ => ?_
    refine (bump_pathTo (hmem j) fun a ha => hsub a ha j).trans ?_
    simp only [Option.some.injEq, exists_eq_left']
    ring
  | swa =>
    obtain ⟨s₁, e₁, h₁, m₁⟩ := incSessionCoverage_spec hwf h hq hl hr
    rcases old with - | a
    · refine ⟨s₁, ?_, h₁, m₁⟩
      simp only [advanceSessionCoverage, e₁, bind_eq_bind, bind_some]
    · obtain ⟨s₂, e₂, h₂, m₂⟩ := decSessionCoverage_spec hwf h₁
        (Finset.mem_insert_of_mem (hold a rfl).1)
      refine ⟨s₂, ?_, h₂, m₁.trans m₂⟩
      simp only [advanceSessionCoverage, e₁, bind_eq_bind, bind_some, e₂]

/-- `_recede_session_coverage` from a registered leaf to an ancestor. -/
theorem recedeSessionCoverage_spec (h : Exact c T ct P s.sessionRef s.coveredLen)
    (hq : (σ, leaf) ∈ P) {fallback : Option NodeId}
    (hfall : ∀ a, fallback = some a → (σ, a) ∉ P ∧ a ∈ T.path leaf) :
    ∃ s', recedeSessionCoverage c T ct σ leaf fallback s = some s' ∧
      Exact c T ct ((addPair σ fallback P).erase (σ, leaf)) s'.sessionRef s'.coveredLen ∧
      SameMarks s s' := by
  obtain ⟨hl, hr⟩ := h.live _ hq
  have hpath := hwf.isPath hl
  have hnode : ∀ a, fallback = some a → T.Live a ∧ a ≠ T.root := fun a ha =>
    ⟨hpath.live_of_mem (hfall a ha).2,
      fun e => hpath.root_not_mem (e ▸ (hfall a ha).2)⟩
  cases ct with
  | full =>
    obtain ⟨hnd, hmem, hsub⟩ := mem_pathTo hwf hl fun a ha => (hfall a ha).2
    have hpos : (-1 : Int) < 0 → ∀ i ∈ pathTo T leaf fallback, 0 < s.sessionRef i :=
      fun _ i hi => h.pos hq (hpath.live_of_mem ((hmem i).mp hi).1) ((hmem i).mp hi).1
    refine ⟨{ s with sessionRef := bump (-1) (pathTo T leaf fallback) s.sessionRef }, ?_, ?_,
      rfl, rfl⟩
    · rw [recedeSessionCoverage, addAlong_eq hnd hpos]
      rfl
    have hold : ∀ i, some leaf = some i → (σ, i) ∈ P := by
      rintro i ⟨⟩
      exact hq
    refine (h.move_full (fun a ha => ⟨(hfall a ha).1, hnode a ha⟩) hold).congr_ref fun j _ => ?_
    refine (bump_pathTo (hmem j) fun a ha => hsub a ha j).trans ?_
    simp only [Option.some.injEq, exists_eq_left']
    ring
  | swa =>
    obtain ⟨s₁, e₁, h₁, m₁⟩ := decSessionCoverage_spec hwf h hq
    rcases fallback with - | a
    · refine ⟨s₁, ?_, h₁, m₁⟩
      simp only [recedeSessionCoverage, e₁, bind_eq_bind, bind_some]
    have hne : (σ, leaf) ≠ (σ, a) := fun e => (hfall a rfl).1 (e ▸ hq)
    obtain ⟨hal, har⟩ := hnode a rfl
    obtain ⟨s₂, e₂, h₂, m₂⟩ := incSessionCoverage_spec hwf h₁
      (fun hm => (hfall a rfl).1 (Finset.mem_of_mem_erase hm)) hal har
    refine ⟨s₂, ?_, ?_, m₁.trans m₂⟩
    · simp only [recedeSessionCoverage, e₁, bind_eq_bind, bind_some, e₂]
    · rwa [addPair, Finset.erase_insert_of_ne hne.symm]

end Coverage

/-! ### Markers -/

/-- The markers at the nodes and the index of the sessions agree. -/
structure Marked (s : Refs) : Prop where
  mem_iff : ∀ σ i, (σ, i) ∈ s.leaves ↔ σ ∈ (s.sessionIds i).getD ∅
  nonempty : ∀ i, s.sessionIds i ≠ some ∅

theorem Marked.of_same (h : Marked s) (hs : SameMarks s s') : Marked s' :=
  ⟨fun σ i => by rw [hs.leaves, hs.sessionIds]; exact h.mem_iff σ i,
    fun i => by rw [hs.sessionIds]; exact h.nonempty i⟩

theorem Marked.mark (h : Marked s) (σ : SessionId) (leaf : NodeId) :
    Marked (markSessionLeaf σ leaf s) := by
  refine ⟨fun τ i => ?_, fun i => ?_⟩
  · simp only [markSessionLeaf, Finset.mem_insert, Prod.mk.injEq, h.mem_iff]
    by_cases hi : i = leaf
    · subst hi
      simp
    · simp [hi]
  · by_cases hi : i = leaf
    · subst hi
      simp [markSessionLeaf]
    · simpa [markSessionLeaf, hi] using h.nonempty i

/-- `_unmark_session_leaf` of a registered leaf. -/
theorem Marked.unmark (h : Marked s) (hq : (σ, leaf) ∈ s.leaves) :
    ∃ s', unmarkSessionLeaf σ leaf s = some s' ∧ Marked s' ∧
      s'.leaves = s.leaves.erase (σ, leaf) ∧ s'.sessionRef = s.sessionRef ∧
      s'.coveredLen = s.coveredLen := by
  refine ⟨_, if_pos ⟨hq, (h.mem_iff σ leaf).mp hq⟩, ⟨fun τ i => ?_, fun i => ?_⟩, rfl, rfl, rfl⟩
  · simp only [Finset.mem_erase, ne_eq, Prod.mk.injEq, h.mem_iff]
    by_cases hi : i = leaf
    · subst hi
      split_ifs with he
      · have : τ ∉ ((s.sessionIds i).getD ∅).erase σ := by simp [he]
        simpa using this
      · simp [Finset.mem_erase]
    · simp [hi]
  · by_cases hi : i = leaf
    · subst hi
      split_ifs with he <;> simp_all
    · simpa [hi] using h.nonempty i

/-! ### The invariant of a component -/

structure RefsInv (c : CoreConfig) (T : Tree) (ct : Component) (s : Refs) : Prop where
  exact : Exact c T ct s.leaves s.sessionRef s.coveredLen
  marked : Marked s

section Leaves

variable (hwf : T.WF c.ops) {node : NodeId}

include hwf

theorem mem_path_of_parent {p : NodeId} (hp : T.parentOf leaf = some p) (hi : i ∈ T.path p) :
    i ∈ T.path leaf := by
  rw [hwf.path_cons hp]
  exact mem_cons_of_mem _ hi

theorem nearestSessionAncestor_some {a : NodeId} (h : nearestSessionAncestor T σ leaf s = some a) :
    (σ, a) ∈ s.leaves ∧ a ∈ T.path leaf := by
  obtain ⟨p, hp, hf⟩ := bind_eq_some_iff.mp h
  have hmem := find?_some hf
  simp only [decide_eq_true_eq] at hmem
  exact ⟨hmem, mem_path_of_parent hwf hp (mem_of_find?_eq_some hf)⟩

section

variable (h : RefsInv c T ct s)
include h

/-- **`register_session_leaf`**: the leaf takes the place of the nearest registered ancestor. -/
theorem registerSessionLeaf_spec (enable : Bool) (σ : SessionId)
    {leaf : Option NodeId} (hl : ∀ i, leaf = some i → T.Live i) :
    ∃ s', registerSessionLeaf c T ct enable σ leaf s = some s' ∧ RefsInv c T ct s' ∧
      ∀ q ∈ s'.leaves, q.1 = σ ∨ q ∈ s.leaves := by
  rcases leaf with - | leaf
  · exact ⟨s, rfl, h, fun q hq => .inr hq⟩
  rw [registerSessionLeaf]
  by_cases hskip : (!enable || leaf = T.root || (σ, leaf) ∈ s.leaves)
  · rw [if_pos hskip]
    exact ⟨s, rfl, h, fun q hq => .inr hq⟩
  rw [if_neg hskip]
  simp only [Bool.or_eq_true, decide_eq_true_eq, not_or] at hskip
  obtain ⟨⟨-, hr⟩, hq⟩ := hskip
  have hold : ∀ a, nearestSessionAncestor T σ leaf s = some a →
      (σ, a) ∈ s.leaves ∧ a ∈ T.path leaf := fun a => nearestSessionAncestor_some hwf
  generalize nearestSessionAncestor T σ leaf s = old at hold ⊢
  obtain ⟨s₁, e₁, h₁, m₁⟩ := advanceSessionCoverage_spec hwf h.exact hq (hl leaf rfl) hr hold
  have hmark := (h.marked.of_same m₁).mark σ leaf
  have hleaves : (markSessionLeaf σ leaf s₁).leaves = insert (σ, leaf) s.leaves := by
    rw [← m₁.leaves]
    rfl
  rcases old with - | a
  · refine ⟨markSessionLeaf σ leaf s₁, ?_, ⟨?_, hmark⟩, fun q hq => ?_⟩
    · simp only [e₁, bind_eq_bind, bind_some]
    · rw [hleaves]
      exact h₁
    · rw [hleaves, Finset.mem_insert] at hq
      exact hq.imp_left fun e => by rw [e]
  · have ha : (σ, a) ∈ (markSessionLeaf σ leaf s₁).leaves := by
      rw [hleaves]
      exact Finset.mem_insert_of_mem (hold a rfl).1
    obtain ⟨s₂, e₂, hmark₂, hleaves₂, href₂, hlen₂⟩ := hmark.unmark ha
    refine ⟨s₂, ?_, ⟨?_, hmark₂⟩, fun q hq => ?_⟩
    · simp only [e₁, bind_eq_bind, bind_some, e₂]
    · rw [hleaves₂, hleaves, href₂, hlen₂]
      exact h₁
    · rw [hleaves₂, hleaves] at hq
      exact (Finset.mem_insert.mp (Finset.mem_of_mem_erase hq)).imp_left fun e => by rw [e]

/-- **`release_session`** unregisters the leaves of the session, one after the other. -/
theorem releaseSession_spec {leaves : List NodeId} (hnd : leaves.Nodup)
    (hmem : ∀ i ∈ leaves, (σ, i) ∈ s.leaves) :
    ∃ s', releaseSession c T ct σ leaves s = some s' ∧ RefsInv c T ct s' ∧
      ∀ q, q ∈ s'.leaves ↔ q ∈ s.leaves ∧ ¬ (q.1 = σ ∧ q.2 ∈ leaves) := by
  induction leaves generalizing s with
  | nil => exact ⟨s, rfl, h, fun q => by simp⟩
  | cons i leaves ih =>
    obtain ⟨hi, hnd⟩ := nodup_cons.mp hnd
    have hq := hmem i mem_cons_self
    obtain ⟨s₁, e₁, h₁, m₁⟩ := decSessionCoverage_spec hwf h.exact hq
    obtain ⟨s₂, e₂, hmark₂, hleaves₂, href₂, hlen₂⟩ :=
      (h.marked.of_same m₁).unmark (m₁.leaves.symm ▸ hq)
    rw [m₁.leaves] at hleaves₂
    have h₂ : RefsInv c T ct s₂ := ⟨by rw [hleaves₂, href₂, hlen₂]; exact h₁, hmark₂⟩
    obtain ⟨s₃, e₃, h₃, hleaves₃⟩ := ih h₂ hnd fun j hj => by
      rw [hleaves₂, Finset.mem_erase]
      refine ⟨fun e => ?_, hmem j (mem_cons_of_mem _ hj)⟩
      rw [Prod.mk.injEq] at e
      exact hi (e.2 ▸ hj)
    refine ⟨s₃, ?_, h₃, fun q => ?_⟩
    · simp only [releaseSession, foldlM_cons, e₁, e₂, bind_eq_bind, bind_some]
      exact e₃
    · rw [hleaves₃, hleaves₂, Finset.mem_erase, mem_cons, ne_eq, Prod.ext_iff]
      tauto

/-- One session of a node that is deleted falls back, or loses its leaf. -/
theorem discardSession_spec (hq : (σ, node) ∈ s.leaves)
    (validator : NodeId → Bool) : ∃ s', discardSession c T ct node validator s σ = some s' ∧
      RefsInv c T ct s' ∧ (∀ τ, (τ, node) ∈ s'.leaves ↔ (τ, node) ∈ s.leaves ∧ τ ≠ σ) ∧
      ∀ q ∈ s'.leaves, q.1 = σ ∨ q ∈ s.leaves := by
  rw [discardSession, if_pos hq]
  dsimp only
  have hfall : ∀ a, ((T.parentOf node).bind (findReusableSessionLeaf T validator)).filter
      (fun i => (σ, i) ∉ s.leaves) = some a → (σ, a) ∉ s.leaves ∧ a ∈ T.path node := by
    intro a ha
    obtain ⟨hb, hno⟩ := filter_eq_some_iff.mp ha
    obtain ⟨p, hp, hf⟩ := bind_eq_some_iff.mp hb
    exact ⟨of_decide_eq_true hno, mem_path_of_parent hwf hp (mem_of_find?_eq_some hf)⟩
  generalize ((T.parentOf node).bind (findReusableSessionLeaf T validator)).filter
    (fun i => (σ, i) ∉ s.leaves) = fallback at hfall ⊢
  obtain ⟨s₁, e₁, h₁, m₁⟩ := recedeSessionCoverage_spec hwf h.exact hq hfall
  obtain ⟨s₂, e₂, hmark₂, hleaves₂, href₂, hlen₂⟩ :=
    (h.marked.of_same m₁).unmark (m₁.leaves.symm ▸ hq)
  rw [m₁.leaves] at hleaves₂
  rcases fallback with - | a
  · refine ⟨s₂, ?_, ⟨by rw [hleaves₂, href₂, hlen₂]; exact h₁, hmark₂⟩, fun τ => ?_, fun q hq' => ?_⟩
    · simp only [e₁, e₂, bind_eq_bind, bind_some]
    · rw [hleaves₂, Finset.mem_erase, ne_eq, Prod.mk.injEq]
      tauto
    · rw [hleaves₂] at hq'
      exact .inr (Finset.mem_of_mem_erase hq')
  · have hne : (σ, a) ≠ (σ, node) := fun e => (hfall a rfl).1 (e ▸ hq)
    have hleaves₃ : (markSessionLeaf σ a s₂).leaves = (insert (σ, a) s.leaves).erase (σ, node) := by
      rw [Finset.erase_insert_of_ne hne, ← hleaves₂]
      rfl
    refine ⟨markSessionLeaf σ a s₂, ?_, ⟨?_, hmark₂.mark σ a⟩, fun τ => ?_, fun q hq' => ?_⟩
    · simp only [e₁, e₂, bind_eq_bind, bind_some]
    · rw [hleaves₃]
      change Exact c T ct _ s₂.sessionRef s₂.coveredLen
      rw [href₂, hlen₂]
      exact h₁
    · have hna : node ≠ a := fun e => hne (by rw [e])
      rw [hleaves₃, Finset.mem_erase, Finset.mem_insert, ne_eq, Prod.mk.injEq, Prod.mk.injEq]
      tauto
    · rw [hleaves₃] at hq'
      exact (Finset.mem_insert.mp (Finset.mem_of_mem_erase hq')).imp_left fun e => by rw [e]

/-- **`discard_deleted_session_leaf`** leaves no leaf at the node. -/
theorem discardDeletedSessionLeaf_spec
    {ids : List SessionId} (hnd : ids.Nodup) (hmem : ∀ σ ∈ ids, (σ, node) ∈ s.leaves)
    (validator : SessionId → NodeId → Bool) :
    ∃ s', discardDeletedSessionLeaf c T ct node ids validator s = some s' ∧ RefsInv c T ct s' ∧
      (∀ τ, (τ, node) ∈ s'.leaves ↔ (τ, node) ∈ s.leaves ∧ τ ∉ ids) ∧
      ∀ q ∈ s'.leaves, q.1 ∈ ids ∨ q ∈ s.leaves := by
  induction ids generalizing s with
  | nil => exact ⟨s, rfl, h, fun τ => by simp, fun q hq => .inr hq⟩
  | cons σ ids ih =>
    obtain ⟨hσ, hnd⟩ := nodup_cons.mp hnd
    obtain ⟨s₁, e₁, h₁, hnode₁, hsub₁⟩ :=
      discardSession_spec hwf h (hmem σ mem_cons_self) (validator σ)
    obtain ⟨s₂, e₂, h₂, hnode₂, hsub₂⟩ := ih h₁ hnd fun τ hτ =>
      (hnode₁ τ).mpr ⟨hmem τ (mem_cons_of_mem _ hτ), fun e => hσ (e ▸ hτ)⟩
    refine ⟨s₂, ?_, h₂, fun τ => ?_, fun q hq => ?_⟩
    · simp only [discardDeletedSessionLeaf, foldlM_cons, e₁, bind_eq_bind,
        bind_some]
      exact e₂
    · rw [hnode₂, hnode₁, mem_cons]
      tauto
    · rcases hsub₂ q hq with hq | hq
      · exact .inl (mem_cons_of_mem _ hq)
      · rcases hsub₁ q hq with hq | hq
        · exact .inl (hq ▸ mem_cons_self)
        · exact .inr hq

end

end Leaves

end SglangRuntime.Session
