import SglangRuntime.Foundation.PagedMap
import SglangRuntime.MemCache.RadixCache.Run

/-!
# Memory cache — what `RadixCache` caches

The purpose of the tree, without the tree: for every namespace a paged map from sequences of
logical units to slots (`Contents`), a lookup that answers with the slots of the longest prefix of
a key, an insertion that adds what is missing, and evictions that drop sequences.

`Represents` relates a tree to the contents it holds.  Every operation on the tree is a move of the
contents with the same answer (`Represents.step`), so a run of the cache is a run of the abstract
machine with the same events.

* `Contents.Run.supplied`: in a run of the abstract machine a page that is there was supplied by an
  insertion that found it missing, and has been there unchanged ever since.
-/

namespace SglangRuntime.RadixCache

open Foundation Foundation.Trie List RadixKey RadixCache Option
open RadixKey (LongestAlong)

variable {c : CacheInitParams} {s s' : RadixCache} {held held' : Multiset NodeId}

/-! ### The abstract machine -/

/-- What is cached, by namespace. -/
abbrev Contents (c : CacheInitParams) := Namespace → PagedMap LogicalUnit Slot c.pageSize

namespace Contents

/-- The answer to a lookup: the slots of the longest prefix of the key in its namespace. -/
def answer (M : Contents c) (key : RadixKey) : List Slot :=
  (M key.namespaceOf).slots (c.viewKey key).logicalUnits

/-- The length of the longest prefix of the key in its namespace. -/
def prefixLen (M : Contents c) (key : RadixKey) : Nat :=
  (M key.namespaceOf).longest (c.viewKey key).logicalUnits

/-- An insertion, which a disabled cache ignores. -/
def insert (M : Contents c) (params : InsertParams c) : Contents c :=
  if c.disable then M
  else Function.update M params.key.namespaceOf
    ((M params.key.namespaceOf).insert (c.viewKey params.key).logicalUnits (insertValue c params))

/-- One event of the abstract machine. -/
inductive Move (c : CacheInitParams) : Contents c → Event c → Contents c → Prop where
  | matchPrefix (M : Contents c) (key : RadixKey) : Move c M (.matchPrefix key (M.answer key)) M
  | insert (M : Contents c) (params : InsertParams c) :
      Move c M (.insert params (M.prefixLen params.key)) (M.insert params)
  | incLockRef (M : Contents c) (node : NodeId) : Move c M (.incLockRef node) M
  | decLockRef (M : Contents c) (node : NodeId) : Move c M (.decLockRef node) M
  | evict {M M' : Contents c} (numTokens : Nat) (h : ∀ ns, M' ns ≤ M ns) :
      Move c M (.evict numTokens) M'

/-- A run of the abstract machine from the empty contents: its events, each with the contents it
led to, the last one first. -/
inductive Run (c : CacheInitParams) : List (Event c × Contents c) → Contents c → Prop where
  | empty : Run c [] fun _ => .empty
  | move {hist : List (Event c × Contents c)} {M M' : Contents c} {e : Event c}
      (r : Run c hist M) (h : Move c M e M') : Run c ((e, M') :: hist) M'

/-- The page `pg` at `us` was supplied by an insertion that found it missing, and is there in all
contents since. -/
def Supplied (c : CacheInitParams) (hist : List (Event c × Contents c)) (ns : Namespace)
    (us : List LogicalUnit) (pg : List Slot) : Prop :=
  ∃ later params n M₁ earlier M₀, hist = later ++ (Event.insert params n, M₁) :: earlier ∧
    Run c earlier M₀ ∧ (M₀ ns).pageAt us = none ∧ params.key.namespaceOf = ns ∧
    us <+: (c.viewKey params.key).logicalUnits ∧
    pg = slice (insertValue c params) (us.length - c.pageSize) us.length ∧
    (M₁ ns).pageAt us = some pg ∧ ∀ x ∈ later, (x.2 ns).pageAt us = some pg

theorem Supplied.later {hist : List (Event c × Contents c)} {ns : Namespace}
    {us : List LogicalUnit} {pg : List Slot} (h : Supplied c hist ns us pg) (e : Event c)
    {M : Contents c} (hM : (M ns).pageAt us = some pg) : Supplied c ((e, M) :: hist) ns us pg := by
  obtain ⟨later, params, n, M₁, earlier, M₀, rfl, hrest⟩ := h
  obtain ⟨hrun, hno, hns, hpre, hpg, h₁, hlater⟩ := hrest
  refine ⟨(e, M) :: later, params, n, M₁, earlier, M₀, rfl, hrun, hno, hns, hpre, hpg, h₁, ?_⟩
  intro x hx
  rcases mem_cons.mp hx with rfl | hx
  · exact hM
  · exact hlater x hx

/-- What an insertion leaves at a place: the page that was there, or the one it offers. -/
theorem pageAt_insert_eq_some {M : Contents c} {params : InsertParams c} {ns : Namespace}
    {us : List LogicalUnit} {pg : List Slot} (h : (M.insert params ns).pageAt us = some pg) :
    (M ns).pageAt us = some pg ∨ (M ns).pageAt us = none ∧ params.key.namespaceOf = ns ∧
      us <+: (c.viewKey params.key).logicalUnits ∧
      pg = slice (insertValue c params) (us.length - c.pageSize) us.length := by
  rw [insert] at h
  split_ifs at h with hd
  · exact .inl h
  rw [Function.update_apply] at h
  split_ifs at h with hns
  · subst hns
    rcases or_eq_some_iff.mp h with h | ⟨hno, h⟩
    · exact .inl h
    · obtain ⟨⟨-, -, hpre, -⟩, hpg⟩ := PagedMap.offer_eq_some.mp h
      exact .inr ⟨hno, rfl, hpre, hpg⟩
  · exact .inl h

/-- **A page that is there was supplied by the insertion that first cached it.** -/
theorem Run.supplied {hist : List (Event c × Contents c)} {M : Contents c} (r : Run c hist M)
    {ns : Namespace} {us : List LogicalUnit} {pg : List Slot} (h : (M ns).pageAt us = some pg) :
    Supplied c hist ns us pg := by
  induction r with
  | empty => cases h
  | move r m ih =>
    cases m with
    | matchPrefix key => exact (ih h).later _ h
    | incLockRef node => exact (ih h).later _ h
    | decLockRef node => exact (ih h).later _ h
    | evict n hle => exact (ih (hle ns us pg h)).later _ h
    | insert params =>
      rcases pageAt_insert_eq_some h with hold | ⟨hno, hns, hpre, hpg⟩
      · exact (ih hold).later _ h
      · exact ⟨[], params, _, _, _, _, rfl, r, hno, hns, hpre, hpg, h, nofun⟩

end Contents

/-! ### What the operations do to the pages held -/

section Holds

variable {us : List (Namespace × LogicalUnit)} {pg : List Slot}

section

variable (h : Books c s ∅)
include h

theorem Holds.aligned (hh : Holds c s us pg) :
    0 < us.length ∧ c.pageSize ∣ us.length ∧ pg.length = c.pageSize := by
  obtain ⟨i, n, a, ⟨p, k, hp, hk, hn, hd, hle, rfl⟩, ha, rfl⟩ := hh
  obtain ⟨v, hv, hlen⟩ := h.value (h.wf.ne_root_of_parentOf hp) hk ha
  have hpage : c.pageSize ≤ n := Nat.le_of_dvd hn hd
  have htake : (k.units.take n).length = n := by rw [length_take]; exact min_eq_left hle
  refine ⟨?_, ?_, ?_⟩
  · rw [length_append, ops_units, htake]
    exact Nat.add_pos_right _ hn
  · rw [length_append, ops_units, htake]
    exact dvd_add (h.wf.page_dvd_spellTo (h.wf.parent_live hp)) hd
  · rw [ops_units, length_units, ← hlen] at hle
    rw [slotsOf, hv, getD_some, slice, length_drop, length_take, min_eq_left hle]
    exact Nat.sub_sub_self hpage

theorem Reshaped.holds_iff (hr : Reshaped c s s') : Holds c s' us pg ↔ Holds c s us pg := by
  obtain ⟨-, -, -, ht | ⟨i, dTop, dRest, len, k, ok, ht⟩⟩ := hr
  · rw [Holds, Holds, ht]
  obtain ⟨a, ha⟩ := ok.live.data
  obtain ⟨v, hv, -⟩ := h.value ok.ne_root ok.key ha
  rw [Holds, Holds, ht, splitTree]
  refine h.wf.holdsPage_split ok ha ?_ ?_ <;> simp [slotsOf, TreeNodeData.sliceTo,
    TreeNodeData.sliceFrom, hv]

theorem Relocked.holds_iff {l : List NodeId} {n : Int} (hr : Relocked s s' l n) :
    Holds c s' us pg ↔ Holds c s us pg := by
  refine hr.shape.holdsPage_iff h.wf fun i => ?_
  have e := congrArg (Option.map fun v : Option (List Slot) => v.getD []) (hr.value i)
  rw [Option.map_map, Option.map_map] at e
  exact e

theorem Pruned.holds (hp : Pruned c s s') (hh : Holds c s' us pg) : Holds c s us pg := by
  induction hp with
  | refl => exact hh
  | more hx hdel _ ih =>
    obtain ⟨s₁, d, hdel', hb, ok, ht⟩ := h.deleteLeaf hx
    rw [hdel, some.injEq] at hdel'
    subst hdel'
    have hh := ih hb hh
    rw [Holds, ht] at hh
    exact h.wf.holdsPage_removeLeaf ok hh

/-- **What `insert` adds**: the pages of the key that were not cached, with the slots supplied. -/
theorem Inserted.holds_iff {r : RadixKey} {value : List Slot} {m : Nat}
    (hi : Inserted c s s' r value m) : Holds c s' us pg ↔ Holds c s us pg ∨
      ¬ s.tree.Cached c.ops us ∧ ∃ n, 0 < n ∧ c.pageSize ∣ n ∧ n ≤ r.len ∧ us = r.units.take n ∧
        pg = slice value (n - c.pageSize) n := by
  obtain ⟨⟨hm, hdm, hlong⟩, hi⟩ := hi
  simp only [nil_append, length_units] at hm hlong
  rcases hi with ⟨rfl, hr⟩ | ⟨s₁, w, now, priority, chunked, hlt, hr, hk, hunits, hval, -, hspell, rfl⟩
  · -- the whole key was cached
    rw [hr.holds_iff h]
    refine ⟨.inl, ?_⟩
    rintro (hh | ⟨hno, n, hn, hd, hle, rfl, -⟩)
    · exact hh
    · exact absurd ((hlong n hn hd hle).mpr hle) hno
  · -- the new leaf carries the pages past `m`
    have hb := h.reshape hr
    have hcut : ∀ n, r.units.take m ++ (r.units.drop m).take n = r.units.take (m + n) := fun n =>
      take_add.symm
    have hpage : ∀ {n}, c.pageSize ≤ n → slice w.value (n - c.pageSize) n =
        slice value (m + n - c.pageSize) (m + n) := by
      intro n hn
      rw [hval, slice_drop, Nat.add_comm m n, Nat.sub_add_comm hn]
    rw [Holds, tree_insertLeaf, hb.wf.holdsPage_addLeaf hk, ← Holds, hr.holds_iff h, or_comm]
    refine or_congr_right ?_
    simp only [ops_units, ops_page, hunits, hspell, hcut, length_drop,
      length_units]
    constructor
    · rintro ⟨n, hn, hd, hle, rfl, rfl⟩
      have hle' : m + n ≤ r.len := by omega
      have hdvd : c.pageSize ∣ m + n := dvd_add hdm hd
      refine ⟨fun hc => ?_, m + n, by omega, hdvd, hle', rfl, hpage (Nat.le_of_dvd hn hd)⟩
      have := (hlong (m + n) (by omega) hdvd hle').mp hc
      omega
    · rintro ⟨hno, n, hn, hd, hle, rfl, rfl⟩
      have hgt : m < n := not_le.mp fun hle' => hno ((hlong n hn hd hle).mpr hle')
      have hdvd : c.pageSize ∣ n - m := Nat.dvd_sub hd hdm
      refine ⟨n - m, by omega, hdvd, by omega, ?_, ?_⟩
      · rw [Nat.add_sub_cancel' hgt.le]
      · change _ = slice w.value _ _
        rw [hpage (Nat.le_of_dvd (by omega) hdvd), Nat.add_sub_cancel' hgt.le]

end

end Holds

/-! ### A tree and its contents -/

/-- `M` is what the tree of `s` holds. -/
def Represents (c : CacheInitParams) (s : RadixCache) (M : Contents c) : Prop :=
  ∀ ns us pg, (M ns).pageAt us = some pg ↔ Holds c s (us.map (Prod.mk ns)) pg

theorem exists_represents (h : Books c s ∅) : ∃ M, Represents c s M := by
  classical
  -- a place carries one page, so choosing one is no choice
  let pageAt : Namespace → List LogicalUnit → Option (List Slot) := fun ns us =>
    if hh : ∃ pg, Holds c s (us.map (Prod.mk ns)) pg then some hh.choose else none
  have hiff : ∀ ns us pg, pageAt ns us = some pg ↔ Holds c s (us.map (Prod.mk ns)) pg := by
    intro ns us pg
    simp only [pageAt]
    split_ifs with hh
    · rw [some.injEq]
      exact ⟨fun e => e ▸ hh.choose_spec, h.wf.holdsPage_unique hh.choose_spec⟩
    · exact ⟨nofun, fun hp => absurd ⟨pg, hp⟩ hh⟩
  refine ⟨fun ns => ⟨pageAt ns, fun {us pg} e => ?_, fun {us v pg} e hpre hpos hd => ?_⟩, hiff⟩
  · simpa using ((hiff ns us pg).mp e).aligned h
  obtain ⟨i, n, -, ha, -⟩ := (hiff ns v pg).mp e
  obtain ⟨j, m, ha'⟩ := h.wf.at_prefix ha (hpre.map (Prod.mk ns)) (by simpa using hpos)
    (by simpa using hd)
  obtain ⟨pg', hp⟩ := Cached.holdsPage (S := Slot) ⟨j, m, ha'⟩ slotsOf
  exact isSome_iff_exists.mpr ⟨pg', (hiff ns us pg').mpr hp⟩

namespace Represents

variable {M M' : Contents c} {key : RadixKey} {vals : List Slot} {m : Nat}

section

variable (h : Represents c s M)
include h

theorem congr (hh : ∀ us pg, Holds c s' us pg ↔ Holds c s us pg) :
    Represents c s' M :=
  fun ns us pg => (h ns us pg).trans (hh _ _).symm

theorem isSome_pageAt (ns : Namespace) (us : List LogicalUnit) :
    ((M ns).pageAt us).isSome ↔ s.tree.Cached c.ops (us.map (Prod.mk ns)) := by
  rw [isSome_iff_exists]
  constructor
  · rintro ⟨pg, hp⟩
    exact ((h ns us pg).mp hp).cached
  · intro hc
    obtain ⟨pg, hp⟩ := hc.holdsPage slotsOf
    exact ⟨pg, (h ns us pg).mpr hp⟩

theorem pageAt_eq_none (ns : Namespace) (us : List LogicalUnit) :
    (M ns).pageAt us = none ↔ ¬ s.tree.Cached c.ops (us.map (Prod.mk ns)) := by
  rw [← h.isSome_pageAt, not_isSome_iff_eq_none]

end

/-- The units of a key as read, in its namespace. -/
theorem units_viewKey (c : CacheInitParams) (key : RadixKey) :
    (c.viewKey key).units = (c.viewKey key).logicalUnits.map (Prod.mk key.namespaceOf) := by
  rw [units_eq_map, CacheInitParams.namespaceOf_viewKey]

section

variable (h : Represents c s M)
include h

theorem prefixLen_eq
    (hl : LongestAlong c.pageSize_pos s.tree [] (c.viewKey key).units m) : M.prefixLen key = m := by
  obtain ⟨hle, hd, hl⟩ := hl
  rw [units_viewKey, length_map] at hle hl
  refine PagedMap.longest_eq hle hd fun n hn hdn hnle => ?_
  rw [h.isSome_pageAt, map_take, ← hl n hn hdn hnle, nil_append]

/-- **A lookup's answer is that of the contents.** -/
theorem answer_eq (ha : Answers c s [] (c.viewKey key).units vals) : M.answer key = vals := by
  obtain ⟨hl, hpages⟩ := ha
  refine PagedMap.slots_eq (h.prefixLen_eq hl) hl.2.1 fun n hn hd hle => ?_
  rw [h, map_take, ← units_viewKey]
  simpa using hpages n hn hd hle

theorem length_answer (ha : Answers c s [] (c.viewKey key).units vals) :
    (M.answer key).length = M.prefixLen key := by
  rw [h.answer_eq ha, h.prefixLen_eq ha.1]

theorem insert (hb : Books c s ∅) (hdis : c.disable = false)
    {params : InsertParams c} (hi : Inserted c s s' (c.viewKey params.key) (insertValue c params) m) :
    Represents c s' (M.insert params) := by
  intro ns us pg
  have hvlen := length_insertValue params
  rw [hi.holds_iff hb, ← h ns us pg, ← h.pageAt_eq_none, Contents.insert, hdis,
    if_neg Bool.false_ne_true, Function.update_apply]
  split_ifs with hns
  · subst hns
    rw [PagedMap.pageAt_insert, or_eq_some_iff, PagedMap.offer_eq_some]
    refine or_congr_right (and_congr_right fun _ => ?_)
    constructor
    · rintro ⟨⟨hpos, hd, hpre, hle⟩, hpg⟩
      refine ⟨us.length, hpos, hd, hvlen ▸ hle, ?_, hpg⟩
      rw [units_viewKey, ← map_take, ← prefix_iff_eq_take.mp hpre]
    rintro ⟨n, hn, hd, hle, e, rfl⟩
    rw [units_viewKey, ← map_take] at e
    have e := (map_injective_iff.mpr (Prod.mk_right_injective _)) e
    have hlen : us.length = n := by
      rw [e, length_take]
      refine min_eq_left ?_
      have := congrArg List.length (units_viewKey c params.key)
      rw [length_map, length_units] at this
      exact this ▸ hle
    rw [hlen]
    exact ⟨⟨hn, hd, e ▸ take_prefix _ _, hvlen ▸ hle⟩, rfl⟩
  · -- a place of another namespace is no place of the key
    refine ⟨.inl, ?_⟩
    rintro (hh | ⟨-, n, hn, -, hle, e, -⟩)
    · exact hh
    exfalso
    rw [units_viewKey, ← map_take] at e
    have hpos : 0 < ((c.viewKey params.key).logicalUnits.take n).length := by
      have := congrArg List.length (units_viewKey c params.key)
      rw [length_map, length_units] at this
      rw [length_take, ← this]
      exact lt_min hn (hn.trans_le hle)
    obtain ⟨u, hu⟩ := exists_mem_of_length_pos hpos
    have hmem := mem_map_of_mem (f := Prod.mk params.key.namespaceOf) hu
    rw [← e] at hmem
    obtain ⟨v, -, hv⟩ := mem_map.mp hmem
    exact hns (congrArg Prod.fst hv)

theorem le (h' : Represents c s' M')
    (hh : ∀ us pg, Holds c s' us pg → Holds c s us pg) (ns : Namespace) : M' ns ≤ M ns :=
  fun us pg hp => (h ns us pg).mpr (hh _ _ ((h' ns us pg).mp hp))

end

end Represents

/-! ### The operations and their moves -/

namespace Inv

variable {M : Contents c}

section

variable (h : Inv c s held)
include h

theorem not_cached_of_disabled (hd : c.disable)
    (us : List (Namespace × LogicalUnit)) : ¬ s.tree.Cached c.ops us := by
  rintro ⟨i, n, ha⟩
  obtain ⟨p, k, hp, -⟩ := ha
  exact h.books.wf.ne_root_of_parentOf hp (h.disabled hd i (live_of_parentOf hp))

theorem longestAlong_of_disabled (hd : c.disable)
    (r : List (Namespace × LogicalUnit)) : LongestAlong c.pageSize_pos s.tree [] r 0 := by
  refine ⟨Nat.zero_le _, dvd_zero _, fun n hn _ _ => ?_⟩
  exact ⟨fun hc => absurd hc (h.not_cached_of_disabled hd _), fun h0 => absurd hn (by omega)⟩

theorem matchPrefix_answers (key : RadixKey) (now : Int) :
    ∃ s' vals node, s.matchPrefix c key now = some (s', vals, node) ∧ Reshaped c s s' ∧
      Answers c s [] (c.viewKey key).units vals := by
  cases hd : c.disable with
  | true =>
    refine ⟨s, [], s.tree.root, ?_, .refl c s, .nil (h.longestAlong_of_disabled hd _)⟩
    simp [matchPrefix, hd]
  | false => exact matchPrefix_spec h.books hd key now

section

variable (hM : Represents c s M)
include hM

/-- **`match_prefix`** answers with the contents and leaves them alone. -/
theorem matchPrefix_represents (key : RadixKey)
    (now : Int) : ∃ s' node, s.matchPrefix c key now = some (s', M.answer key, node) ∧
      Represents c s' M := by
  obtain ⟨s', vals, node, e, hr, ha⟩ := h.matchPrefix_answers key now
  exact ⟨s', node, by rw [hM.answer_eq ha, e], hM.congr fun us pg => hr.holds_iff h.books⟩

theorem prefixLen_eq_length_answer (key : RadixKey) : M.prefixLen key = (M.answer key).length := by
  obtain ⟨-, vals, -, -, -, ha⟩ := h.matchPrefix_answers key 0
  exact (hM.length_answer ha).symm

/-- **`insert`** answers with the length of what a lookup would return, and adds the rest. -/
theorem insert_represents (params : InsertParams c)
    (now : Int) : ∃ s' node, s.insert c params now = some (s', M.prefixLen params.key, node) ∧
      Represents c s' (M.insert params) := by
  cases hd : c.disable with
  | true =>
    refine ⟨s, s.tree.root, ?_, ?_⟩
    · rw [hM.prefixLen_eq (h.longestAlong_of_disabled hd _)]
      simp [insert, hd]
    · rw [Contents.insert, hd, if_pos rfl]
      exact hM
  | false =>
    obtain ⟨s', m, node, e, hi⟩ := insert_spec h.books hd params now
    exact ⟨s', node, by rw [hM.prefixLen_eq hi.longest, e], hM.insert h.books hd hi⟩

theorem incLockRef_represents {i : NodeId}
    (hi : s.tree.Live i) : Represents c (s.incLockRef c i).1 M := by
  cases hd : c.disable with
  | true => simpa only [RadixCache.incLockRef, hd, if_true] using hM
  | false => exact hM.congr fun us pg => (h.relocked_incLockRef hd hi).2.holds_iff h.books

theorem decLockRef_represents {i : NodeId}
    (hi : i ∈ held) : Represents c (s.decLockRef c i).1 M := by
  cases hd : c.disable with
  | true => simpa only [RadixCache.decLockRef, hd, if_true] using hM
  | false => exact hM.congr fun us pg => (h.relocked_decLockRef hd hi).2.holds_iff h.books

/-- **`evict`** drops sequences and changes no page that stays. -/
theorem evict_represents (numTokens : Nat)
    (rank : NodeId → Nat) : ∃ s' n freed M', s.evict c numTokens rank = some (s', n, freed) ∧
      Represents c s' M' ∧ ∀ ns, M' ns ≤ M ns := by
  cases hd : c.disable with
  | true =>
    refine ⟨s, 0, [], M, ?_, hM, fun ns us pg hp => hp⟩
    simp [evict, hd]
  | false =>
    obtain ⟨s', removed, e, hp, -⟩ := evict_spec h.books hd numTokens rank
    obtain ⟨M', hM'⟩ := exists_represents (h.pruned hp).books
    exact ⟨s', _, _, M', e, hM', hM.le hM' fun us pg => hp.holds h.books⟩

/-- **A split of a node changes no page**, wherever it cuts. -/
theorem splitNode_represents {i : NodeId} {k : RadixKey}
    {m : Nat} (hr : i ≠ s.tree.root) (hk : s.tree.keyOf i = some k) (hpos : 0 < m)
    (hdvd : c.pageSize ∣ m) (hlt : m < k.len) (now : Int) :
    ∃ s' node, s.splitNode c k i m now = some (s', node) ∧ Represents c s' M := by
  have hpage : c.pageSize ≤ k.len := (Nat.le_of_dvd hpos hdvd).trans hlt.le
  obtain ⟨d, hd⟩ := isSome_iff_exists.mp (k.childKey_isSome c.pageSize_pos hpage)
  obtain ⟨s', dRest, e, -, -, hr⟩ := splitNode_spec h.books.wf hr hk hd hpos hdvd hlt now
  exact ⟨s', _, e, hM.congr fun us pg => hr.holds_iff h.books⟩

end

end

end Inv

/-- **Every operation is a move of the contents with the same answer.** -/
theorem Represents.step {M : Contents c} {e : Event c} (h : Inv c s held) (hM : Represents c s M)
    (hs : Step c s held e s' held') : ∃ M', Represents c s' M' ∧ Contents.Move c M e M' := by
  cases hs with
  | matchPrefix key now eq =>
    obtain ⟨s₁, node, e₁, hM₁⟩ := h.matchPrefix_represents hM key now
    obtain ⟨rfl, rfl, -⟩ : s' = s₁ ∧ _ := by simpa [eq] using e₁
    exact ⟨M, hM₁, .matchPrefix M key⟩
  | insert params now eq =>
    obtain ⟨s₁, node, e₁, hM₁⟩ := h.insert_represents hM params now
    obtain ⟨rfl, rfl, -⟩ : s' = s₁ ∧ _ := by simpa [eq] using e₁
    exact ⟨M.insert params, hM₁, .insert M params⟩
  | incLockRef node hl => exact ⟨M, h.incLockRef_represents hM hl, .incLockRef M node⟩
  | decLockRef node hm => exact ⟨M, h.decLockRef_represents hM hm, .decLockRef M node⟩
  | evict n rank eq =>
    obtain ⟨s₁, k, freed, M', e₁, hM', hle⟩ := h.evict_represents hM n rank
    obtain ⟨rfl, -⟩ : s' = s₁ ∧ _ := by simpa [eq] using e₁
    exact ⟨M', hM', .evict n hle⟩

theorem represents_reset (c : CacheInitParams) : Represents c reset fun _ => .empty := by
  intro ns us pg
  refine ⟨nofun, ?_⟩
  rintro ⟨i, n, a, ⟨p, k, hp, -⟩, -⟩
  by_cases e : i = 0 <;> simp [reset, Trie.empty, parentOf, e] at hp

/-- **A run of the cache is a run of the abstract machine with the same events.** -/
theorem Run.represents {es : List (Event c)} (h : Run c s held es) :
    ∃ hist M, hist.map Prod.fst = es ∧ Contents.Run c hist M ∧ Represents c s M := by
  induction h with
  | reset => exact ⟨[], _, rfl, .empty, represents_reset c⟩
  | step r hs ih =>
    obtain ⟨hist, M, rfl, hrun, hM⟩ := ih
    obtain ⟨M', hM', hmove⟩ := hM.step r.inv hs
    exact ⟨_, M', rfl, hrun.move hmove, hM'⟩

/-- Every operation from `s`, by what it answers and what it leaves of the contents `M`. -/
structure Refines (c : CacheInitParams) (s : RadixCache) (held : Multiset NodeId)
    (M : Contents c) : Prop where
  /-- the slots of the longest cached prefix; a lookup changes no answer -/
  matchPrefix : ∀ key now, ∃ s' node,
    s.matchPrefix c key now = some (s', M.answer key, node) ∧ Represents c s' M
  /-- the length a lookup would have returned -/
  insert : ∀ params now, ∃ s' node,
    s.insert c params now = some (s', (M.answer params.key).length, node) ∧
      Represents c s' (M.insert params)
  incLockRef : ∀ i, s.tree.Live i → Represents c (s.incLockRef c i).1 M
  decLockRef : ∀ i ∈ held, Represents c (s.decLockRef c i).1 M
  evict : ∀ numTokens rank, ∃ s' n freed M', s.evict c numTokens rank = some (s', n, freed) ∧
    Represents c s' M' ∧ ∀ ns, M' ns ≤ M ns
  /-- a split changes no answer, wherever it cuts -/
  splitNode : ∀ i k m now, i ≠ s.tree.root → s.tree.keyOf i = some k → 0 < m → c.pageSize ∣ m →
    m < k.len → ∃ s' node, s.splitNode c k i m now = some (s', node) ∧ Represents c s' M

theorem Inv.refines {M : Contents c} (h : Inv c s held) (hM : Represents c s M) :
    Refines c s held M where
  matchPrefix := h.matchPrefix_represents hM
  insert params now := by
    rw [← h.prefixLen_eq_length_answer hM]
    exact h.insert_represents hM params now
  incLockRef _ := h.incLockRef_represents hM
  decLockRef _ := h.decLockRef_represents hM
  evict := h.evict_represents hM
  splitNode _ _ _ now hr hk hpos hdvd hlt := h.splitNode_represents hM hr hk hpos hdvd hlt now

theorem Contents.answer_insert_of_ne (M : Contents c) (params : InsertParams c) {key : RadixKey}
    (h : key.namespaceOf ≠ params.key.namespaceOf) : (M.insert params).answer key = M.answer key := by
  rw [answer, answer, insert]
  split_ifs
  · rfl
  · rw [Function.update_of_ne h]

/-- **`RadixCache` refines the map from namespaces to paged sequences.**  A run has the same events
as a run of the abstract machine; in every state of it each operation answers as the contents say
and moves them as the abstract machine does; the slots of a page are those of the insertion that
first cached it; and an insertion changes no answer of another namespace. -/
theorem radixCache_refines {es : List (Event c)} (h : Run c s held es) :
    ∃ hist M, hist.map Prod.fst = es ∧ Contents.Run c hist M ∧ Represents c s M ∧
      Refines c s held M ∧
      (∀ ns us pg, (M ns).pageAt us = some pg → Contents.Supplied c hist ns us pg) ∧
      ∀ (params : InsertParams c) (key : RadixKey), key.namespaceOf ≠ params.key.namespaceOf →
        (M.insert params).answer key = M.answer key := by
  obtain ⟨hist, M, hes, hrun, hM⟩ := h.represents
  exact ⟨hist, M, hes, hrun, hM, h.inv.refines hM, fun _ _ _ hp => hrun.supplied hp,
    fun params _ hns => M.answer_insert_of_ne params hns⟩

theorem radixCache_refines_lockedTwice : ∃ hist M,
    hist.map Prod.fst = [.incLockRef 1, .incLockRef 1, .insert oneTokenInsert 0] ∧
      Contents.Run tokenParams hist M ∧ Represents tokenParams lockedTwice M ∧
      Refines tokenParams lockedTwice (1 ::ₘ 1 ::ₘ 0) M :=
  let ⟨hist, M, hes, hrun, hM, href, _⟩ := radixCache_refines run_lockedTwice
  ⟨hist, M, hes, hrun, hM, href⟩

end SglangRuntime.RadixCache
