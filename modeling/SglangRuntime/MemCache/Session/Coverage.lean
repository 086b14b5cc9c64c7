import SglangRuntime.MemCache.Session.Model

/-!
# Memory cache — session coverage is counted exactly

`Exact` says that `session_ref` counts, at every node of the tree, the pairs of a session and a leaf
that cover it: the Full component covers the path of the leaf, the sliding-window component the part
of the path that lies in the recorded span.  Registering, receding and releasing add and remove such
pairs (`Exact.add`, `Exact.remove`); a split, a new leaf and a removed leaf keep the counts right.
-/

namespace SglangRuntime.Session

open Foundation Foundation.Trie Function Finset List

variable {c : CoreConfig} {T T' : Tree} {ct : Component} {P : Finset (SessionId × NodeId)}
  {ref ref' : NodeId → Int} {L L' : SessionId × NodeId → Option Nat} {q : SessionId × NodeId}
  {i j : NodeId} {l : List NodeId} {p : Prop} {delta : Int}

/-- Leaf `leaf`, registered with the covered length `n`, covers node `i`. -/
def CoversNode (c : CoreConfig) (T : Tree) (ct : Component) (n : Option Nat) (leaf i : NodeId) :
    Prop :=
  match ct with
  | .full => i ∈ T.path leaf
  | .swa => T.InSpan c.ops leaf (n.getD 0) i

instance (c : CoreConfig) (T : Tree) (ct : Component) (n : Option Nat) (leaf : NodeId) :
    DecidablePred (CoversNode c T ct n leaf) := fun i =>
  match ct with
  | .full => inferInstanceAs (Decidable (i ∈ T.path leaf))
  | .swa => inferInstanceAs (Decidable (T.InSpan c.ops leaf (n.getD 0) i))

/-- How many pairs of `P` cover `i`. -/
def coverage (c : CoreConfig) (T : Tree) (ct : Component) (P : Finset (SessionId × NodeId))
    (L : SessionId × NodeId → Option Nat) (i : NodeId) : Nat :=
  (P.filter fun q => CoversNode c T ct (L q) q.2 i).card

structure Exact (c : CoreConfig) (T : Tree) (ct : Component) (P : Finset (SessionId × NodeId))
    (ref : NodeId → Int) (L : SessionId × NodeId → Option Nat) : Prop where
  live : ∀ q ∈ P, T.Live q.2 ∧ q.2 ≠ T.root
  count : ∀ i, T.Live i → ref i = coverage c T ct P L i
  /-- a covered length is recorded for exactly the leaves, and ends at a node -/
  recorded : ct = .swa → ∀ q, if q ∈ P then ∃ n, L q = some n ∧ T.Reaches c.ops q.2 n
    else L q = none

/-! ### Pairs come and go -/

theorem coverage_congr (h : ∀ q ∈ P, (CoversNode c T' ct (L' q) q.2 j ↔ CoversNode c T ct (L q) q.2 i)) :
    coverage c T' ct P L' j = coverage c T ct P L i :=
  congrArg Finset.card (filter_congr h)

theorem coverage_insert (hq : q ∉ P) : coverage c T ct (insert q P) L i =
    coverage c T ct P L i + if CoversNode c T ct (L q) q.2 i then 1 else 0 := by
  unfold coverage
  rw [filter_insert]
  split_ifs with h
  · rw [card_insert_of_notMem (by simp [hq])]
  · rw [Nat.add_zero]

theorem coverage_erase (hq : q ∈ P) : coverage c T ct P L i =
    coverage c T ct (P.erase q) L i + if CoversNode c T ct (L q) q.2 i then 1 else 0 := by
  conv_lhs => rw [← insert_erase hq]
  exact coverage_insert (notMem_erase q P)

namespace Exact

/-- The Full component has no covered lengths. -/
theorem full_lens (h : Exact c T .full P ref L) (L' : SessionId × NodeId → Option Nat) :
    Exact c T .full P ref L' :=
  ⟨h.live, fun i hi => h.count i hi, fun e => nomatch e⟩

section

variable (h : Exact c T ct P ref L)
include h

theorem congr_ref (hr : ∀ i, T.Live i → ref' i = ref i) : Exact c T ct P ref' L :=
  ⟨h.live, fun i hi => (hr i hi).trans (h.count i hi), h.recorded⟩

theorem add (hq : q ∉ P) (hl : T.Live q.2) (hr : q.2 ≠ T.root)
    {n : Option Nat} (hn : ct = .swa → ∃ m, n = some m ∧ T.Reaches c.ops q.2 m) :
    Exact c T ct (insert q P) (fun i => ref i + if CoversNode c T ct n q.2 i then 1 else 0)
      (update L q n) := by
  have hne : ∀ x ∈ P, x ≠ q := fun x hx e => hq (e ▸ hx)
  refine ⟨fun x hx => ?_, fun i hi => ?_, fun e x => ?_⟩
  · rcases mem_insert.mp hx with rfl | hx
    · exact ⟨hl, hr⟩
    · exact h.live x hx
  · have hold : coverage c T ct P (update L q n) i = coverage c T ct P L i :=
      coverage_congr fun x hx => by rw [update_of_ne (hne x hx)]
    rw [coverage_insert hq, hold, update_self, h.count i hi]
    push_cast
    rfl
  · have := h.recorded e x
    by_cases hx : x = q
    · subst hx
      rw [if_pos (mem_insert_self _ _), update_self]
      exact hn e
    · rw [update_of_ne hx]
      simp only [mem_insert, hx, false_or]
      exact this

theorem remove (hq : q ∈ P) :
    Exact c T ct (P.erase q) (fun i => ref i - if CoversNode c T ct (L q) q.2 i then 1 else 0)
      (update L q none) := by
  refine ⟨fun x hx => h.live x (mem_of_mem_erase hx), fun i hi => ?_, fun e x => ?_⟩
  · have hold : coverage c T ct (P.erase q) (update L q none) i =
        coverage c T ct (P.erase q) L i :=
      coverage_congr fun x hx => by rw [update_of_ne (ne_of_mem_erase hx)]
    rw [hold, h.count i hi, coverage_erase hq]
    push_cast
    ring
  · have := h.recorded e x
    by_cases hx : x = q
    · subst hx
      rw [if_neg (notMem_erase x P), update_self]
    · rw [update_of_ne hx]
      simp only [mem_erase, ne_eq, hx, not_false_eq_true, true_and]
      exact this

/-- A count below a registered leaf is positive. -/
theorem pos (hq : q ∈ P) (hi : T.Live i) (hc : CoversNode c T ct (L q) q.2 i) : 0 < ref i := by
  rw [h.count i hi, coverage_erase hq, if_pos hc]
  omega

end

end Exact

/-! ### Walks -/

/-- `ref`, changed by `delta` at the nodes of `l`. -/
def bump (delta : Int) (l : List NodeId) (ref : NodeId → Int) (i : NodeId) : Int :=
  if i ∈ l then ref i + delta else ref i

theorem bump_one [Decidable p] (h : i ∈ l ↔ p) : bump 1 l ref i = ref i + if p then 1 else 0 := by
  by_cases hp : p <;> simp [bump, h, hp]

theorem bump_neg_one [Decidable p] (h : i ∈ l ↔ p) :
    bump (-1) l ref i = ref i - if p then 1 else 0 := by
  by_cases hp : p <;> simp [bump, h, hp, Int.sub_eq_add_neg]

theorem bump_update (hi : i ∉ l) :
    bump delta l (update ref i (ref i + delta)) = bump delta (i :: l) ref := by
  funext j
  by_cases hj : j = i
  · subst hj
    simp [bump, hi]
  · simp [bump, hj]

theorem addAlong_eq (hnd : l.Nodup)
    (hpos : delta < 0 → ∀ i ∈ l, 0 < ref i) : addAlong delta l ref = some (bump delta l ref) := by
  induction l generalizing ref with
  | nil => rfl
  | cons i l ih =>
    obtain ⟨hi, hnd⟩ := nodup_cons.mp hnd
    have hrest : delta < 0 → ∀ j ∈ l, 0 < update ref i (ref i + delta) j := by
      intro hd j hj
      rw [update_of_ne (by rintro rfl; exact hi hj)]
      exact hpos hd j (mem_cons_of_mem _ hj)
    rw [addAlong, if_neg (fun hc => hc.2 (hpos hc.1 i mem_cons_self)), ih hnd hrest,
      bump_update hi]

theorem walkSessionCoverage_eq {span covered : Nat} (hnd : l.Nodup)
    (hpos : delta < 0 → ∀ i ∈ T.window c.ops (span - covered) l, 0 < ref i) :
    walkSessionCoverage (T.segLen c.ops) span delta l covered ref =
      some (bump delta (T.window c.ops (span - covered) l) ref,
        covered + T.windowLen c.ops (span - covered) l) := by
  induction l generalizing ref covered with
  | nil => rfl
  | cons i l ih =>
    obtain ⟨hi, hnd⟩ := nodup_cons.mp hnd
    rw [walkSessionCoverage]
    by_cases hlt : covered < span
    · have hne : span - covered ≠ 0 := by omega
      have hwin : T.window c.ops (span - covered) (i :: l) =
          i :: T.window c.ops (span - (covered + T.segLen c.ops i)) l := by
        rw [window, if_neg hne, Nat.sub_sub]
      have hsub : ∀ n, ∀ j ∈ T.window c.ops n l, j ∈ l := fun n j hj => window_subset n hj
      rw [hwin] at hpos
      have hrest : delta < 0 → ∀ j ∈ T.window c.ops (span - (covered + T.segLen c.ops i)) l,
          0 < update ref i (ref i + delta) j := by
        intro hd j hj
        rw [update_of_ne (by rintro rfl; exact hi (hsub _ j hj))]
        exact hpos hd j (mem_cons_of_mem _ hj)
      rw [if_pos hlt, if_neg (fun hc => hc.2 (hpos hc.1 i mem_cons_self)), ih hnd hrest,
        bump_update (fun hm => hi (hsub _ i hm)), windowLen, windowLen, hwin, List.map_cons,
        List.sum_cons, Nat.add_assoc]
    · have h0 : span - covered = 0 := by omega
      rw [if_neg hlt, h0, windowLen, window, if_pos rfl]
      rfl

end SglangRuntime.Session
