import SglangRuntime.Foundation.TriePath

/-!
# Foundation — where a list of units stands in a trie

`At O T i n us` says that `us` is what the path to the `n`-th unit of node `i`'s segment spells,
`n` being a page boundary.  Sibling segments may share units inside their first page, so only page
boundaries have a place of their own; those have exactly one.

* `WF.descend`: a page boundary more than a page below `q` lies below the child of `q` that the
  next page of units selects.
* `WF.at_unique`: a list of units stands at one place at most.
* `WF.at_prefix`: every page-aligned prefix of a list that stands in the trie stands in it too.
* `WF.at_split`, `WF.at_addLeaf`, `WF.at_removeLeaf`: what the operations do to the places.
-/

set_option linter.unusedSectionVars false

namespace Foundation.Trie

open List Option

variable {K U D A : Type} [DecidableEq D]

/-- `us` spells the path to the `n`-th unit of `i`'s segment, a page boundary. -/
def At (O : KeyOps K U D) (T : Trie K D A) (i n : Nat) (us : List U) : Prop :=
  ∃ p k, T.parentOf i = some p ∧ T.keyOf i = some k ∧ 0 < n ∧ O.page ∣ n ∧
    n ≤ (O.units k).length ∧ us = T.spellTo O p ++ (O.units k).take n

section Search

variable {O : KeyOps K U D} {T : Trie K D A} {i j p q x : NodeId} {n : Nat} {d : D} {k : K}
  {us v : List U}

section

variable (h : WF O T)
include h

theorem WF.mem_path_self (hp : T.parentOf i = some p) : i ∈ T.path i := by
  rw [h.path_cons hp]; exact mem_cons_self

theorem WF.mem_path_iff (hp : T.parentOf i = some p) : x ∈ T.path i ↔ x = i ∨ x ∈ T.path p := by
  rw [h.path_cons hp, mem_cons]

theorem WF.path_suffix (hi : T.Live i) (hx : x ∈ T.path i) : T.path x <:+ T.path i := by
  obtain ⟨l₁, l₂, e, hl⟩ := (h.isPath hi).of_mem hx
  rw [h.path_eq hl, e]
  exact ⟨l₁, rfl⟩

theorem WF.mem_path_trans (hi : T.Live i) (hx : x ∈ T.path i) (hj : j ∈ T.path x) : j ∈ T.path i :=
  (h.path_suffix hi hx).subset hj

theorem WF.mem_path_antisymm (hx : x ∈ T.path i) (hi : i ∈ T.path x)
    (hlx : T.Live x) (hli : T.Live i) : x = i := by
  have s₁ := h.path_suffix hli hx
  have s₂ := h.path_suffix hlx hi
  have e : T.path x = T.path i := s₁.eq_of_length (le_antisymm s₁.length_le s₂.length_le)
  have hx' := h.isPath hlx
  have hi' := h.isPath hli
  rw [e] at hx'
  generalize T.path i = l at hx hx' hi'
  -- both are the head of the same list
  cases hi' with
  | root => cases hx
  | cons => cases hx'; rfl

/-- What an ancestor's path spells begins what the path to the node spells. -/
theorem WF.spellTo_prefix (hi : T.Live i) (hx : x ∈ T.path i) :
    T.spellTo O x <+: T.spellTo O i := by
  refine h.induct ?_ ?_ hi hx
  · intro hx
    rw [h.path_root] at hx
    cases hx
  · intro i p k hp hk ih hx
    rcases (h.mem_path_iff hp).mp hx with rfl | hx
    · exact prefix_rfl
    · exact (ih hx).trans (h.spellTo_cons hp hk ▸ prefix_append _ _)

/-- Below a proper ancestor, the path to a node passes through one of its children. -/
theorem WF.child_on_path (hi : T.Live i) (hq : q = T.root ∨ q ∈ T.path i)
    (hne : q ≠ i) : ∃ c ∈ T.path i, T.parentOf c = some q := by
  refine h.induct ?_ ?_ hi hq hne
  · intro hq hne
    rw [h.path_root] at hq
    rcases hq with rfl | hq
    · exact absurd rfl hne
    · cases hq
  · intro i p k hp _ ih hq hne
    rw [h.path_cons hp] at hq ⊢
    by_cases e : q = p
    · exact ⟨i, mem_cons_self, e ▸ hp⟩
    · have hq' := hq.imp_right fun hm => (mem_cons.mp hm).resolve_left hne
      obtain ⟨c, hc, hcp⟩ := ih hq' e
      exact ⟨c, mem_cons_of_mem _ hc, hcp⟩

end

theorem at_iff (hp : T.parentOf i = some p) (hk : T.keyOf i = some k) :
    T.At O i n us ↔ 0 < n ∧ O.page ∣ n ∧ n ≤ (O.units k).length ∧
      us = T.spellTo O p ++ (O.units k).take n := by
  constructor
  · rintro ⟨p', k', hp', hk', ha⟩
    rw [hp, some.injEq] at hp'
    rw [hk, some.injEq] at hk'
    subst hp' hk'
    exact ha
  · intro ha
    exact ⟨p, k, hp, hk, ha⟩

theorem not_at_of_not_live (hi : ¬ T.Live i) : ¬ T.At O i n us := by
  rintro ⟨p, k, hp, -⟩
  exact hi (live_of_parentOf hp)

theorem At.live (h : T.At O i n us) : T.Live i := by
  obtain ⟨p, k, hp, -⟩ := h; exact live_of_parentOf hp

theorem KeyOps.take_page_append (O : KeyOps K U D) {k : K} (h : O.Paged k) (v : List U) :
    (O.units k ++ v).take O.page = (O.units k).take O.page :=
  take_append_of_le_length h.page_le

section

variable (h : WF O T)
include h

/-- Nodes under one parent whose first pages agree are one node. -/
theorem WF.child_unique {k' : K} (hi : T.parentOf i = some p) (hj : T.parentOf j = some p)
    (hk : T.keyOf i = some k) (hk' : T.keyOf j = some k')
    (e : (O.units k).take O.page = (O.units k').take O.page) : i = j := by
  have pk := h.paged (h.ne_root_of_parentOf hi) hk
  have pk' := h.paged (h.ne_root_of_parentOf hj) hk'
  obtain ⟨d, hd⟩ := isSome_iff_exists.mp (O.label_isSome k pk.page_le)
  have hd' : O.label k' = some d := by
    rw [← hd]; exact ((O.label_eq_iff k k' pk.page_le pk'.page_le).mpr e).symm
  have ci := h.child_iff.mpr ⟨hi, by rw [hk]; exact hd⟩
  have cj := h.child_iff.mpr ⟨hj, by rw [hk']; exact hd'⟩
  exact some.inj (ci.symm.trans cj)

/-- On the way to a place `us`, the segment of a node `c` agrees with `us` as far as both go. -/
theorem WF.at_segment {c : NodeId} {kc : K} (ha : T.At O x n (T.spellTo O q ++ v))
    (hc : c ∈ T.path x) (hq : T.parentOf c = some q) (hk : T.keyOf c = some kc) :
    (c = x ∧ v = (O.units kc).take n) ∨ O.units kc <+: v := by
  obtain ⟨p, k, hp, hkx, -, -, -, e⟩ := ha
  rcases (h.mem_path_iff hp).mp hc with rfl | hcp
  · rw [hp, some.injEq] at hq
    rw [hkx, some.injEq] at hk
    subst hq hk
    exact .inl ⟨rfl, append_cancel_left e⟩
  · have hpre : T.spellTo O c <+: T.spellTo O q ++ v :=
      e ▸ (h.spellTo_prefix (h.parent_live hp) hcp).trans (prefix_append _ _)
    rw [h.spellTo_cons hq hk] at hpre
    exact .inr ((prefix_append_right_inj _).mp hpre)

/-- **A place a page or more below `q` lies below the child of `q` that the next page selects.** -/
theorem WF.descend (hq : T.Live q) (ha : T.At O x n (T.spellTo O q ++ v))
    (hv : O.page ≤ v.length) : ∃ c kc, c ∈ T.path x ∧ T.parentOf c = some q ∧
      T.keyOf c = some kc ∧ (O.units kc).take O.page = v.take O.page := by
  have finish : ∀ {q v}, T.At O x n (T.spellTo O q ++ v) → O.page ≤ v.length →
      (q = T.root ∨ q ∈ T.path x) → q ≠ x → ∃ c kc, c ∈ T.path x ∧ T.parentOf c = some q ∧
        T.keyOf c = some kc ∧ (O.units kc).take O.page = v.take O.page := by
    intro q v ha hv hmem hne
    obtain ⟨c, hc, hcq⟩ := h.child_on_path ha.live hmem hne
    obtain ⟨kc, hkc⟩ := (live_of_parentOf hcq).key
    have hpage := (h.paged (h.ne_root_of_parentOf hcq) hkc).page_le
    refine ⟨c, kc, hc, hcq, hkc, ?_⟩
    rcases h.at_segment ha hc hcq hkc with ⟨-, e⟩ | ⟨w, rfl⟩
    · have hn : O.page ≤ n := by
        rw [e, length_take] at hv; exact hv.trans (min_le_left _ _)
      rw [e, take_take, min_eq_left hn]
    · exact (take_append_of_le_length hpage).symm
  -- going down to `q`, each step shows that the node reached is on the way to `x`
  refine h.induct ?_ ?_ hq v ha hv
  · intro v ha hv
    refine finish ha hv (.inl rfl) ?_
    rintro rfl
    obtain ⟨p, k, hp, -⟩ := ha
    exact h.ne_root_of_parentOf hp rfl
  · intro q r kq hr hkq ih v ha hv
    have pq := h.paged (h.ne_root_of_parentOf hr) hkq
    have ha' : T.At O x n (T.spellTo O r ++ (O.units kq ++ v)) := by
      rwa [← append_assoc, ← h.spellTo_cons hr hkq]
    obtain ⟨c, kc, hc, hcr, hkc, e⟩ := ih _ ha'
      (by rw [length_append]; exact pq.page_le.trans (Nat.le_add_right _ _))
    rw [KeyOps.take_page_append O pq] at e
    obtain rfl : c = q := h.child_unique hcr hr hkc hkq e
    refine finish ha hv (.inr hc) ?_
    rintro rfl
    obtain ⟨p, k, hp, hk, -, -, hn, e'⟩ := ha
    rw [hr, some.injEq] at hp
    rw [hkc, some.injEq] at hk
    subst hp hk
    have := congrArg List.length e'
    rw [h.spellTo_cons hr hkc] at this
    simp only [length_append, length_take] at this
    have := O.page_pos
    omega

/-- **A list of units stands at one place at most.** -/
theorem WF.at_unique {m : Nat} (hi : T.At O i n us) (hj : T.At O j m us) :
    i = j ∧ n = m := by
  have mem : ∀ {i j n m}, T.At O i n us → T.At O j m us → i ∈ T.path j := by
    intro i j n m hi hj
    obtain ⟨p, k, hp, hk, hn, hd, hle, e⟩ := hi
    have hpage : O.page ≤ n := Nat.le_of_dvd hn hd
    obtain ⟨c, kc, hc, hcp, hkc, e'⟩ := h.descend (h.parent_live hp) (e ▸ hj)
      (by rw [length_take, min_eq_left hle]; exact hpage)
    rw [take_take, min_eq_left hpage] at e'
    obtain rfl : c = i := h.child_unique hcp hp hkc hk e'
    exact hc
  obtain rfl : i = j := h.mem_path_antisymm (mem hi hj) (mem hj hi) hi.live hj.live
  refine ⟨rfl, ?_⟩
  obtain ⟨p, k, hp, hk, -, -, hn, e⟩ := hi
  obtain ⟨p', k', hp', hk', -, -, hm, e'⟩ := hj
  rw [hp, some.injEq] at hp'
  rw [hk, some.injEq] at hk'
  subst hp' hk'
  have := congrArg List.length (e.symm.trans e')
  simp only [length_append, length_take] at this
  omega

theorem WF.at_of_spellTo_prefix (hi : T.Live i) (hpre : us <+: T.spellTo O i)
    (hpos : 0 < us.length) (hd : O.page ∣ us.length) : ∃ j m, T.At O j m us := by
  refine h.induct ?_ ?_ hi hpre
  · intro hpre
    rw [h.spellTo_root, prefix_nil] at hpre
    subst hpre
    exact absurd hpos (lt_irrefl 0)
  intro i p k hp hk ih hpre
  rw [h.spellTo_cons hp hk] at hpre
  rcases le_or_gt us.length (T.spellTo O p).length with hle | hlt
  · exact ih (prefix_of_prefix_length_le hpre (prefix_append _ _) hle)
  -- the prefix ends inside this segment
  have e := prefix_iff_eq_take.mp hpre
  rw [take_append, take_of_length_le hlt.le] at e
  refine ⟨i, us.length - (T.spellTo O p).length, p, k, hp, hk, by omega,
    Nat.dvd_sub hd (h.page_dvd_spellTo (h.parent_live hp)), ?_, e⟩
  have := hpre.length_le
  rw [length_append] at this
  omega

/-- **Page-aligned prefixes of what stands in the trie stand in it.** -/
theorem WF.at_prefix {us' : List U} (ha : T.At O i n us) (hpre : us' <+: us)
    (hpos : 0 < us'.length) (hd : O.page ∣ us'.length) : ∃ j m, T.At O j m us' := by
  refine h.at_of_spellTo_prefix ha.live (hpre.trans ?_) hpos hd
  obtain ⟨p, k, hp, hk, -, -, -, rfl⟩ := ha
  rw [h.spellTo_cons hp hk]
  exact (prefix_append_right_inj _).mpr ( take_prefix _ _)

/-! ### What the operations do to the places -/

end

theorem SameShape.at_iff {T' : Trie K D A} (s : SameShape T T') (h : WF O T) :
    T'.At O x n us ↔ T.At O x n us := by
  simp only [At, s.parentOf, s.keyOf]
  refine exists_congr fun p => exists_congr fun k => and_congr_right fun hp => ?_
  rw [s.spellTo h (h.parent_live hp)]

/-- A split moves the front places of `i` to the fresh node, and nothing else. -/
theorem WF.at_split (h : WF O T) {dTop dRest : D} {len : Nat} {top bottom : A → A}
    (s : SplitOk O T i dTop dRest len k) :
    (T.split O i dTop dRest len top bottom).At O x n us ↔
      (x = T.counter ∧ n ≤ len ∧ T.At O i n us) ∨
      (x = i ∧ 0 < n ∧ T.At O i (n + len) us) ∨
      (x ≠ T.counter ∧ x ≠ i ∧ T.At O x n us) := by
  obtain ⟨p, b⟩ := h.below s.live s.ne_root
  by_cases hxm : x = T.counter
  · subst hxm
    rw [at_iff (p := p) (k := O.take len k) (by rw [b.parentOf_split, if_pos rfl])
      (by rw [b.keyOf_split, if_pos rfl, s.key]; rfl), at_iff b.parent s.key,
      h.spellTo_split s b.live, O.units_take, length_take, take_take,
      min_eq_left s.lt.le]
    simp only [ne_eq, not_true, false_and, or_false, true_and, Ne.symm b.ne_counter]
    constructor
    · rintro ⟨hn, hd, hle, e⟩
      exact ⟨hle, hn, hd, hle.trans s.lt.le, by rwa [min_eq_left hle] at e⟩
    · rintro ⟨hle, hn, hd, -, e⟩
      exact ⟨hn, hd, hle, by rwa [min_eq_left hle]⟩
  by_cases hxi : x = i
  · subst hxi
    have e : ∀ n, (O.units k).take len ++ ((O.units k).drop len).take n =
        (O.units k).take (n + len) := fun n => by
      rw [Nat.add_comm, take_add]
    rw [at_iff (p := T.counter) (k := O.drop len k)
      (by rw [b.parentOf_split, if_neg hxm, if_pos rfl])
      (by rw [b.keyOf_split, if_neg hxm, if_pos rfl, s.key]; rfl),
      h.spellTo_split_new s b.parent, O.units_drop, length_drop, append_assoc, e]
    simp only [hxm, ne_eq, not_true, false_and, and_false, or_false, false_or, true_and,
      at_iff b.parent s.key, Nat.dvd_add_left s.page_dvd]
    constructor
    · rintro ⟨hn, hd, hle, e'⟩
      exact ⟨hn, by omega, hd, by omega, e'⟩
    · rintro ⟨hn, -, hd, hle, e'⟩
      exact ⟨hn, hd, by omega, e'⟩
  · simp only [hxm, hxi, false_and, false_or, ne_eq, not_false_eq_true, true_and]
    simp only [At, b.parentOf_split, b.keyOf_split, if_neg hxm, if_neg hxi]
    refine exists_congr fun q => exists_congr fun k' => and_congr_right fun hq => ?_
    rw [h.spellTo_split s (h.parent_live hq)]

theorem WF.at_addLeaf (h : WF O T) {a : A} (s : LeafOk O T p d k) :
    (T.addLeaf p d k a).At O x n us ↔
      (x = T.counter ∧ 0 < n ∧ O.page ∣ n ∧ n ≤ (O.units k).length ∧
        us = T.spellTo O p ++ (O.units k).take n) ∨ T.At O x n us := by
  have hpm := h.ne_counter s.live
  by_cases hxm : x = T.counter
  · subst hxm
    rw [at_iff (p := p) (k := k) (by rw [parentOf_addLeaf hpm, if_pos rfl])
      (by rw [keyOf_addLeaf hpm, if_pos rfl]), h.spellTo_addLeaf s s.live]
    simp only [true_and, not_at_of_not_live h.fresh, or_false]
  · simp only [hxm, false_and, false_or]
    simp only [At, parentOf_addLeaf hpm, keyOf_addLeaf hpm, if_neg hxm]
    refine exists_congr fun q => exists_congr fun k' => and_congr_right fun hq => ?_
    rw [h.spellTo_addLeaf s (h.parent_live hq)]

theorem WF.at_removeLeaf (h : WF O T) (s : RemoveOk O T i d) :
    (T.removeLeaf i d).At O x n us ↔ x ≠ i ∧ T.At O x n us := by
  obtain ⟨p, b⟩ := h.below s.live s.ne_root
  simp only [At, b.parentOf_removeLeaf, b.keyOf_removeLeaf]
  by_cases hxi : x = i
  · simp [hxi]
  · simp only [ne_eq, hxi, not_false_eq_true, true_and, if_false]
    refine exists_congr fun q => exists_congr fun k' => and_congr_right fun hq => ?_
    have hqi : q ≠ i := by rintro rfl; exact s.childless x hq
    rw [h.spellTo_removeLeaf s (h.parent_live hq) hqi]

end Search

end Foundation.Trie
