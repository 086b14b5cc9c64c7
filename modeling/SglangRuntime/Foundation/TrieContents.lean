import SglangRuntime.Foundation.CommonPrefix
import SglangRuntime.Foundation.TrieSearch

/-!
# Foundation — what a trie holds

Two summaries of a trie's contents.  `total w` sums a weight over the non-root nodes; each
operation changes it by the weights of the nodes it touches.  `HoldsPage slots us pg` says that
the data at the place `us` supplies the page `pg`, where `slots` reads a list of slots, one per
unit, off a node's data; splits leave it alone, a new leaf adds its own pages, a removed leaf takes
its own pages away.

The last section is about looking a segment up, one node at a time: `WF.not_cached_of_no_child`
and `WF.not_cached_past` say that nothing beyond the place where a lookup stops is in the trie.
-/

set_option linter.unusedSectionVars false

namespace Foundation.Trie

open Finset Option

variable {K U D A S : Type} [DecidableEq D]

/-! ### Totals -/

/-- What node `i` contributes to a total; the root contributes nothing. -/
def weight (T : Trie K D A) (w : K → A → Int) (i : NodeId) : Int :=
  if i = T.root then 0 else (((T.keyOf i).bind fun k => (T.dataOf i).map (w k))).getD 0

def total (T : Trie K D A) (w : K → A → Int) : Int := ∑ i ∈ Finset.range T.counter, T.weight w i

section Total

variable {O : KeyOps K U D} {T T' : Trie K D A} {w : K → A → Int} {i j p : NodeId} {d : D} {k : K}
  {a : A}

theorem weight_eq (hr : i ≠ T.root) (hk : T.keyOf i = some k) (ha : T.dataOf i = some a) :
    T.weight w i = w k a := by
  simp [weight, hr, hk, ha]

theorem weight_of_not_live (h : ¬ T.Live i) : T.weight w i = 0 := by
  have : T.keyOf i = none := by simp [keyOf, not_live_iff.mp h]
  simp [weight, this]

theorem weight_congr (hr : T'.root = T.root) (hk : T'.keyOf i = T.keyOf i)
    (ha : T'.dataOf i = T.dataOf i) : T'.weight w i = T.weight w i := by
  simp only [weight, hr, hk, ha]

/-- Two totals over the same identifiers that differ at `i` only. -/
theorem sum_range_eq_of_eq_off {f g : NodeId → Int} {n : Nat} (hi : i < n)
    (h : ∀ j, j ≠ i → f j = g j) :
    ∑ j ∈ Finset.range n, f j = ∑ j ∈ Finset.range n, g j - g i + f i := by
  rw [← add_sum_erase _ f (mem_range.mpr hi),
    ← add_sum_erase _ g (mem_range.mpr hi),
    sum_congr rfl fun j hj => h j (ne_of_mem_erase hj)]
  ring

theorem WF.total_modifyData (h : WF O T) {f : A → A} (hr : i ≠ T.root)
    (hk : T.keyOf i = some k) (ha : T.dataOf i = some a) :
    (T.modifyData i f).total w = T.total w - w k a + w k (f a) := by
  have e := sum_range_eq_of_eq_off (f := (T.modifyData i f).weight w) (g := T.weight w)
    (h.lt_counter (live_of_keyOf hk)) fun j hj =>
      weight_congr rfl keyOf_modifyData (dataOf_modifyData_ne hj)
  have new : (T.modifyData i f).weight w i = w k (f a) :=
    weight_eq hr (by rw [keyOf_modifyData, hk]) (by simp [ha])
  rw [weight_eq hr hk ha, new] at e
  exact e

theorem WF.total_split (h : WF O T) {dTop dRest : D} {len : Nat} {top bottom : A → A}
    (s : SplitOk O T i dTop dRest len k) (ha : T.dataOf i = some a) :
    (T.split O i dTop dRest len top bottom).total w =
      T.total w - w k a + w (O.take len k) (top a) + w (O.drop len k) (bottom a) := by
  obtain ⟨p, b⟩ := h.below s.live s.ne_root
  have e := sum_range_eq_of_eq_off (f := (T.split O i dTop dRest len top bottom).weight w)
    (g := fun j => if j = T.counter then w (O.take len k) (top a) else T.weight w j)
    (n := T.counter + 1) (Nat.lt_succ_of_lt (h.lt_counter s.live)) fun j hj => by
      by_cases hjm : j = T.counter
      · rw [if_pos hjm, weight_eq (k := O.take len k) (a := top a)]
        · rw [root_split, hjm]; exact h.root_ne_counter.symm
        · rw [b.keyOf_split, if_pos hjm, s.key]; rfl
        · rw [b.dataOf_split, if_pos hjm, ha]; rfl
      · rw [if_neg hjm]
        refine weight_congr root_split ?_ ?_
        · rw [b.keyOf_split, if_neg hjm, if_neg hj]
        · rw [b.dataOf_split, if_neg hjm, if_neg hj]
  have old : ∑ j ∈ Finset.range T.counter,
      (if j = T.counter then w (O.take len k) (top a) else T.weight w j) = T.total w :=
    sum_congr rfl fun j hj => if_neg (mem_range.mp hj).ne
  rw [sum_range_succ (fun j => if j = T.counter then _ else _), old, if_pos rfl,
    if_neg b.ne_counter, weight_eq s.ne_root s.key ha,
    weight_eq (k := O.drop len k) (a := bottom a) (by simpa using s.ne_root)
      (by rw [b.keyOf_split, if_neg b.ne_counter, if_pos rfl, s.key]; rfl)
      (by rw [b.dataOf_split, if_neg b.ne_counter, if_pos rfl, ha]; rfl)] at e
  rw [total, b.counter_split, e]
  ring

theorem WF.total_addLeaf (h : WF O T) (s : LeafOk O T p d k) :
    (T.addLeaf p d k a).total w = T.total w + w k a := by
  have hpm := h.ne_counter s.live
  rw [total, counter_addLeaf, sum_range_succ, total]
  congr 1
  · refine sum_congr rfl fun j hj => weight_congr rfl ?_ ?_
    · rw [keyOf_addLeaf hpm, if_neg (mem_range.mp hj).ne]
    · rw [dataOf_addLeaf hpm, if_neg (mem_range.mp hj).ne]
  · exact weight_eq h.root_ne_counter.symm (by rw [keyOf_addLeaf hpm, if_pos rfl])
      (by rw [dataOf_addLeaf hpm, if_pos rfl])

theorem WF.total_removeLeaf (h : WF O T) (s : RemoveOk O T i d) (hk : T.keyOf i = some k)
    (ha : T.dataOf i = some a) : (T.removeLeaf i d).total w = T.total w - w k a := by
  obtain ⟨p, b⟩ := h.below s.live s.ne_root
  have e := sum_range_eq_of_eq_off (f := (T.removeLeaf i d).weight w) (g := T.weight w)
    (h.lt_counter s.live) fun j hj => by
      refine weight_congr root_removeLeaf ?_ ?_
      · rw [b.keyOf_removeLeaf, if_neg hj]
      · rw [b.dataOf_removeLeaf, if_neg hj]
  have dead : (T.removeLeaf i d).weight w i = 0 :=
    weight_of_not_live (by rw [b.live_removeLeaf]; simp)
  rw [weight_eq s.ne_root hk ha, dead, add_zero] at e
  rw [total, counter_removeLeaf, e, total]

end Total

/-! ### Pages -/

/-- Some node holds the place `us`. -/
def Cached (O : KeyOps K U D) (T : Trie K D A) (us : List U) : Prop := ∃ i n, T.At O i n us

/-- The place `us` carries the page of slots `pg`. -/
def HoldsPage (O : KeyOps K U D) (T : Trie K D A) (slots : A → List S) (us : List U)
    (pg : List S) : Prop :=
  ∃ i n a, T.At O i n us ∧ T.dataOf i = some a ∧ pg = slice (slots a) (n - O.page) n

section Pages

variable {O : KeyOps K U D} {T : Trie K D A} {slots : A → List S} {i p q : NodeId} {d : D} {k r : K}
  {a : A} {us v : List U} {pg pg' : List S}

theorem HoldsPage.cached (h : T.HoldsPage O slots us pg) : T.Cached O us := by
  obtain ⟨i, n, -, ha, -⟩ := h; exact ⟨i, n, ha⟩

theorem Cached.holdsPage (h : T.Cached O us) (slots : A → List S) :
    ∃ pg, T.HoldsPage O slots us pg := by
  obtain ⟨i, n, ha⟩ := h
  obtain ⟨a, hd⟩ := ha.live.data
  exact ⟨_, i, n, a, ha, hd, rfl⟩

/-- **A place carries one page.** -/
theorem WF.holdsPage_unique (h : WF O T) (h₁ : T.HoldsPage O slots us pg)
    (h₂ : T.HoldsPage O slots us pg') : pg = pg' := by
  obtain ⟨i, n, a, ha, hd, rfl⟩ := h₁
  obtain ⟨j, m, b, hb, hd', rfl⟩ := h₂
  obtain ⟨rfl, rfl⟩ := h.at_unique ha hb
  rw [hd, some.injEq] at hd'
  rw [hd']

theorem SameShape.holdsPage_iff {T' : Trie K D A} (s : SameShape T T') (h : WF O T)
    (hs : ∀ i, (T'.dataOf i).map slots = (T.dataOf i).map slots) :
    T'.HoldsPage O slots us pg ↔ T.HoldsPage O slots us pg := by
  have key : ∀ {T T' : Trie K D A}, (∀ i, (T'.dataOf i).map slots = (T.dataOf i).map slots) →
      (∀ {x n}, T'.At O x n us ↔ T.At O x n us) →
      T.HoldsPage O slots us pg → T'.HoldsPage O slots us pg := by
    rintro T T' hs hat ⟨x, n, a, ha, hd, rfl⟩
    have e := hs x
    rw [hd, map_some] at e
    obtain ⟨b, hb, hab⟩ := map_eq_some_iff.mp e
    exact ⟨x, n, b, hat.mpr ha, hb, by rw [hab]⟩
  exact ⟨key (fun i => (hs i).symm) (s.at_iff h).symm, key hs (s.at_iff h)⟩

section

variable (h : WF O T)
include h

/-- **A split changes no page**, when it cuts the slots where it cuts the segment. -/
theorem WF.holdsPage_split {dTop dRest : D} {len : Nat} {top bottom : A → A}
    (s : SplitOk O T i dTop dRest len k) (ha : T.dataOf i = some a)
    (htop : slots (top a) = (slots a).take len) (hbot : slots (bottom a) = (slots a).drop len) :
    (T.split O i dTop dRest len top bottom).HoldsPage O slots us pg ↔
      T.HoldsPage O slots us pg := by
  obtain ⟨p, b⟩ := h.below s.live s.ne_root
  have page_le : ∀ {x n us}, T.At O x n us → O.page ≤ n := by
    rintro x n us ⟨-, -, -, -, hn, hd, -⟩; exact Nat.le_of_dvd hn hd
  constructor
  · rintro ⟨x, n, a', hat, hd, rfl⟩
    rw [b.dataOf_split, ha] at hd
    rcases (h.at_split s).mp hat with ⟨rfl, hn, hi⟩ | ⟨rfl, hn, hi⟩ | ⟨hxm, hxi, hi⟩
    · rw [if_pos rfl, map_some, some.injEq] at hd
      exact ⟨i, n, a, hi, ha, by rw [← hd, htop, slice_take _ hn]⟩
    · rw [if_neg b.ne_counter, if_pos rfl, map_some, some.injEq] at hd
      have hpage : O.page ≤ n := by
        obtain ⟨-, -, -, -, -, hdvd, -⟩ := hi
        exact Nat.le_of_dvd hn ((Nat.dvd_add_left s.page_dvd).mp hdvd)
      refine ⟨x, n + len, a, hi, ha, ?_⟩
      rw [← hd, hbot, slice_drop, Nat.sub_add_comm hpage]
    · rw [if_neg hxm, if_neg hxi] at hd
      exact ⟨x, n, a', hi, hd, rfl⟩
  · rintro ⟨x, n, a', hat, hd, rfl⟩
    by_cases hxi : x = i
    · subst hxi
      rw [ha, some.injEq] at hd
      subst hd
      rcases le_or_gt n len with hn | hn
      · refine ⟨T.counter, n, top a, (h.at_split s).mpr (.inl ⟨rfl, hn, hat⟩), ?_, ?_⟩
        · rw [b.dataOf_split, if_pos rfl, ha]; rfl
        · rw [htop, slice_take _ hn]
      have hat' : T.At O x (n - len + len) us := by rwa [Nat.sub_add_cancel hn.le]
      have hdvd : O.page ∣ n - len := by
        obtain ⟨-, -, -, -, -, hdvd, -⟩ := hat
        exact Nat.dvd_sub hdvd s.page_dvd
      have hpage' : O.page ≤ n - len := Nat.le_of_dvd (by omega) hdvd
      refine ⟨x, n - len, bottom a,
        (h.at_split s).mpr (.inr (.inl ⟨rfl, by omega, hat'⟩)), ?_, ?_⟩
      · rw [b.dataOf_split, if_neg b.ne_counter, if_pos rfl, ha]; rfl
      · rw [hbot, slice_drop]; congr 1 <;> omega
    · have hxm := h.ne_counter hat.live
      refine ⟨x, n, a', (h.at_split s).mpr (.inr (.inr ⟨hxm, hxi, hat⟩)), ?_, rfl⟩
      rw [b.dataOf_split, if_neg hxm, if_neg hxi, hd]

theorem WF.holdsPage_addLeaf (s : LeafOk O T p d k) :
    (T.addLeaf p d k a).HoldsPage O slots us pg ↔
      (∃ n, 0 < n ∧ O.page ∣ n ∧ n ≤ (O.units k).length ∧
        us = T.spellTo O p ++ (O.units k).take n ∧ pg = slice (slots a) (n - O.page) n) ∨
      T.HoldsPage O slots us pg := by
  have hpm := h.ne_counter s.live
  constructor
  · rintro ⟨x, n, a', hat, hd, rfl⟩
    rw [dataOf_addLeaf hpm] at hd
    rcases (h.at_addLeaf s).mp hat with ⟨rfl, hn, hdvd, hle, e⟩ | hat
    · rw [if_pos rfl, some.injEq] at hd
      exact .inl ⟨n, hn, hdvd, hle, e, by rw [hd]⟩
    · rw [if_neg (h.ne_counter hat.live)] at hd
      exact .inr ⟨x, n, a', hat, hd, rfl⟩
  · rintro (⟨n, hn, hdvd, hle, e, rfl⟩ | ⟨x, n, a', hat, hd, rfl⟩)
    · refine ⟨T.counter, n, a, (h.at_addLeaf s).mpr (.inl ⟨rfl, hn, hdvd, hle, e⟩), ?_, rfl⟩
      rw [dataOf_addLeaf hpm, if_pos rfl]
    · refine ⟨x, n, a', (h.at_addLeaf s).mpr (.inr hat), ?_, rfl⟩
      rw [dataOf_addLeaf hpm, if_neg (h.ne_counter hat.live), hd]

theorem WF.holdsPage_removeLeaf (s : RemoveOk O T i d)
    (hp : (T.removeLeaf i d).HoldsPage O slots us pg) : T.HoldsPage O slots us pg := by
  obtain ⟨p, b⟩ := h.below s.live s.ne_root
  obtain ⟨x, n, a, hat, hd, rfl⟩ := hp
  obtain ⟨hxi, hat⟩ := (h.at_removeLeaf s).mp hat
  rw [b.dataOf_removeLeaf, if_neg hxi] at hd
  exact ⟨x, n, a, hat, hd, rfl⟩

/-! ### Looking a segment up -/

/-- Where the dictionary has no entry for the next page, nothing that goes on with that page is in
the trie. -/
theorem WF.not_cached_of_no_child (hq : T.Live q) (hd : O.label r = some d)
    (hr : O.page ≤ (O.units r).length) (hc : T.child q d = none) (hv : O.page ≤ v.length)
    (e : v.take O.page = (O.units r).take O.page) : ¬ T.Cached O (T.spellTo O q ++ v) := by
  rintro ⟨x, n, ha⟩
  obtain ⟨c, kc, -, hcq, hkc, e'⟩ := h.descend hq ha hv
  have pk := h.paged (h.ne_root_of_parentOf hcq) hkc
  have hl : O.label kc = some d := by
    rw [← hd]; exact (O.label_eq_iff kc r pk.page_le hr).mpr (e'.trans e)
  have := h.child_iff.mpr ⟨hcq, by rw [hkc]; exact hl⟩
  rw [hc] at this
  cases this

/-- Where the segment found parts from the one looked up, nothing that goes on with the next page
of the latter is in the trie. -/
theorem WF.not_cached_past [DecidableEq U] (hd : O.label r = some d)
    (hr : O.page ≤ (O.units r).length) {c : NodeId} {m : Nat} (hc : T.child q d = some c)
    (hk : T.keyOf c = some k) (hm : m = commonPrefix (O.units k) (O.units r) / O.page * O.page)
    (hlt : m < (O.units k).length) (hv : m + O.page ≤ v.length)
    (hvr : m + O.page ≤ (O.units r).length)
    (e : v.take (m + O.page) = (O.units r).take (m + O.page)) :
    ¬ T.Cached O (T.spellTo O q ++ v) := by
  rintro ⟨x, n, ha⟩
  have hcq := (h.child_iff.mp hc).1
  have hlabel : O.label k = some d := by simpa [hk] using (h.child_iff.mp hc).2
  have pk := h.paged (h.ne_root_of_parentOf hcq) hk
  have hpage : O.page ≤ m + O.page := Nat.le_add_left _ _
  obtain ⟨c', kc, hmem, hcq', hkc, e'⟩ := h.descend (h.parent_live hcq) ha (hpage.trans hv)
  have first : v.take O.page = (O.units r).take O.page := by
    have := congrArg (List.take O.page) e
    rwa [List.take_take, List.take_take, min_eq_left hpage] at this
  have same : (O.units k).take O.page = (O.units r).take O.page :=
    (O.label_eq_iff k r pk.page_le hr).mp (hlabel.trans hd.symm)
  obtain rfl : c' = c := h.child_unique hcq' hcq hkc hk (e'.trans (first.trans same.symm))
  obtain rfl : kc = k := some.inj (hkc.symm.trans hk)
  -- the segment found goes on for another page, and agrees with `v` there
  have hdvd : O.page ∣ m := hm ▸ dvd_mul_left _ _
  have hlong : m + O.page ≤ (O.units kc).length :=
    not_lt.mp fun hl => absurd (Nat.le_of_lt_add_of_dvd hl pk.2 hdvd) (not_le.mpr hlt)
  have agree : (O.units kc).take (m + O.page) = v.take (m + O.page) := by
    rcases h.at_segment ha hmem hcq hkc with ⟨-, ev⟩ | ⟨t, rfl⟩
    · rw [ev, List.length_take] at hv
      rw [ev, List.take_take, min_eq_left (hv.trans (min_le_left _ _))]
    · rw [List.take_append_of_le_length hlong]
  have hle := (take_eq_take_iff_le_commonPrefix hlong hvr).mp (agree.trans e)
  have hlt' := Nat.lt_div_mul_add (a := commonPrefix (O.units kc) (O.units r)) O.page_pos
  omega

end

end Pages

end Foundation.Trie
