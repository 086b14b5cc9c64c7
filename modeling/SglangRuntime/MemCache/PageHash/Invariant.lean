import SglangRuntime.MemCache.PageHash.Model

/-!
# Memory cache — which hashes a node may hold

`wanted` cuts the hashes of a node out of the chain of its whole root path; the invariant `Right`
says that every list that is set is the wanted one.  The step from a parent to a child is
`wanted_cons`: the chain of a node goes on from the digest at its parent, whether or not the parent
holds its own list.
-/

namespace SglangRuntime.PageHash

open Foundation Foundation.Trie

variable {Digest : Type} {c : HashConfig Digest} {T T' : HashTree Digest} {i j p : NodeId}
  {k : RadixKey} {seed : Option Digest} {hs : List Digest}

/-- The part of the chain of the root path that falls to a node. -/
def wanted (c : HashConfig Digest) (T : HashTree Digest) (seed : Option Digest) (i : NodeId) :
    List Digest :=
  (chainOf c.pageHash c.pageSize seed (pathUnits c T i)).drop (pagesAbove c T i)

/-- The digest of the last page on the root path. -/
def digestAt (c : HashConfig Digest) (T : HashTree Digest) (seed : Option Digest) (i : NodeId) :
    Option Digest :=
  digestAfter c.pageHash c.pageSize (T.depth c.ops i / c.pageSize) seed (pathUnits c T i)

/-! ### Along the root path -/

theorem map_snd_units (k : RadixKey) : k.units.map Prod.snd = k.logicalUnits := by
  rw [k.units_eq_map, List.map_map]
  exact List.map_id _

theorem length_logicalUnits (k : RadixKey) : k.logicalUnits.length = k.len := by
  rw [← map_snd_units, List.length_map, k.length_units]

theorem length_pathUnits (T : HashTree Digest) (i : NodeId) :
    (pathUnits c T i).length = T.depth c.ops i :=
  List.length_map _

theorem wanted_congr (hs : T'.spellTo c.ops i = T.spellTo c.ops i) (hk : T'.keyOf i = T.keyOf i) :
    wanted c T' seed i = wanted c T seed i := by
  rw [wanted, wanted, pathUnits, pathUnits, pagesAbove, pagesAbove, depth, depth, hs, segLen, segLen,
    hk]

theorem digestAt_congr (hs : T'.spellTo c.ops i = T.spellTo c.ops i) :
    digestAt c T' seed i = digestAt c T seed i := by
  rw [digestAt, digestAt, pathUnits, pathUnits, depth, depth, hs]

section Path

variable (h : T.WF c.ops)

include h

theorem page_mul_depth (hi : T.Live i) :
    T.depth c.ops i = T.depth c.ops i / c.pageSize * c.pageSize :=
  (Nat.div_mul_cancel (h.page_dvd_spellTo hi)).symm

theorem pathUnits_root : pathUnits c T T.root = [] := by rw [pathUnits, h.spellTo_root, List.map_nil]

theorem digestAt_root : digestAt c T seed T.root = seed := by
  rw [digestAt, h.depth_root, Nat.zero_div, digestAfter]

theorem pathUnits_cons (hp : T.parentOf i = some p) (hk : T.keyOf i = some k) :
    pathUnits c T i = pathUnits c T p ++ k.logicalUnits := by
  rw [pathUnits, h.spellTo_cons hp hk, List.map_append, RadixKey.ops_units, map_snd_units, pathUnits]

theorem pagesAbove_eq (hp : T.parentOf i = some p) :
    pagesAbove c T i = T.depth c.ops p / c.pageSize := by
  rw [pagesAbove, h.depth_cons hp, Nat.add_sub_cancel]

/-- Behind the root path of a node, the chain goes on from the digest there. -/
theorem drop_chainOf_path (hi : T.Live i) (us : List LogicalUnit) :
    (chainOf c.pageHash c.pageSize seed (pathUnits c T i ++ us)).drop
        (T.depth c.ops i / c.pageSize) =
      chainOf c.pageHash c.pageSize (digestAt c T seed i) us := by
  have hlen : (pathUnits c T i).length = T.depth c.ops i / c.pageSize * c.pageSize :=
    (length_pathUnits T i).trans (page_mul_depth h hi)
  have hpages : (chainOf c.pageHash c.pageSize seed (pathUnits c T i)).length =
      T.depth c.ops i / c.pageSize := by
    rw [length_chainOf, hlen, numPagesOf_mul c.pageSize_pos]
  rw [chainOf_append c.pageSize_pos seed hlen]
  exact List.drop_left' hpages

/-- **The chain of a node goes on from the digest at its parent.** -/
theorem wanted_cons (hp : T.parentOf i = some p) (hk : T.keyOf i = some k) :
    wanted c T seed i = chainOf c.pageHash c.pageSize (digestAt c T seed p) k.logicalUnits := by
  rw [wanted, pathUnits_cons h hp hk, pagesAbove_eq h hp, drop_chainOf_path h (h.parent_live hp)]

/-- The digest behind a path that goes on for whole pages. -/
theorem digestAt_append {us : List LogicalUnit} (hi : T.Live i) (hd : c.pageSize ∣ us.length)
    (hpath : pathUnits c T' j = pathUnits c T i ++ us) : digestAt c T' seed j =
      digestAfter c.pageHash c.pageSize (us.length / c.pageSize) (digestAt c T seed i) us := by
  have hlen : T'.depth c.ops j / c.pageSize =
      T.depth c.ops i / c.pageSize + us.length / c.pageSize := by
    rw [← length_pathUnits T' j, hpath, List.length_append, length_pathUnits,
      Nat.add_div_of_dvd_left hd]
  have hle : T.depth c.ops i / c.pageSize * c.pageSize = (pathUnits c T i).length := by
    rw [length_pathUnits]
    exact (page_mul_depth h hi).symm
  rw [digestAt, hlen, hpath, (hashPages_add _ _ _ _).2, (hashPages_append _ _ hle.le _).2, hle,
    List.drop_left' rfl, digestAt]

theorem length_wanted (hp : T.parentOf i = some p) (hk : T.keyOf i = some k) :
    (wanted c T seed i).length = numPagesOf c.pageSize k.len := by
  rw [wanted_cons h hp hk, length_chainOf, length_logicalUnits]

theorem getElem?_wanted {a : Nat} (hi : T.Live i) (ha : a < (wanted c T seed i).length) :
    (wanted c T seed i)[a]? =
      digestAfter c.pageHash c.pageSize (pagesAbove c T i + a + 1) seed (pathUnits c T i) := by
  have hlt : pagesAbove c T i + a < numPagesOf c.pageSize (pathUnits c T i).length := by
    rw [wanted, List.length_drop, length_chainOf] at ha
    omega
  rw [wanted, List.getElem?_drop, chainOf, getElem?_hashPages hlt]

theorem getLast?_wanted (hp : T.parentOf i = some p) :
    (wanted c T seed i).getLast? = digestAt c T seed i := by
  have hi := live_of_parentOf hp
  obtain ⟨k, hk⟩ := hi.key
  have hpaged := h.paged (h.ne_root_of_parentOf hp) hk
  obtain ⟨m, hm⟩ := hpaged.2
  simp only [RadixKey.ops_units, RadixKey.ops_page, RadixKey.length_units] at hm
  have hkpos : 0 < k.len := by simpa using hpaged.1
  have hseg : T.segLen c.ops i = k.len := by
    rw [segLen_eq hk, RadixKey.ops_units, k.length_units]
  have hmpos : 0 < m := Nat.pos_of_ne_zero fun e => by simp [hm, e] at hkpos
  have hlen : (wanted c T seed i).length = m := by
    rw [length_wanted h hp hk, hm, Nat.mul_comm, numPagesOf_mul c.pageSize_pos]
  have hdepth : T.depth c.ops i / c.pageSize = pagesAbove c T i + m := by
    rw [pagesAbove_eq h hp, h.depth_cons hp, hseg, hm, Nat.add_mul_div_left _ _ c.pageSize_pos]
  rw [List.getLast?_eq_getElem?, getElem?_wanted h hi (by omega), hlen, digestAt, hdepth,
    Nat.add_assoc, Nat.sub_add_cancel hmpos]

end Path

/-! ### The invariant -/

/-- Every list that is set is the wanted one. -/
structure Right (c : HashConfig Digest) (T : HashTree Digest) : Prop where
  wf : T.WF c.ops
  root_hash : hashOf T T.root = some []
  hash : ∀ i hs, i ≠ T.root → hashOf T i = some hs → hs = wanted c T none i
  event : ∀ i hs, i ≠ T.root → eventHashOf T i = some hs →
    ∃ salt, saltOf T i = some salt ∧ hs = wanted c T (some (c.saltHash salt)) i
  /-- event hashes are set from the top down -/
  event_up : ∀ i p, T.parentOf i = some p → p ≠ T.root → eventHashOf T i ≠ none →
    eventHashOf T p ≠ none
  namespaces : ∀ i p, T.parentOf i = some p → p ≠ T.root →
    (T.keyOf i).map RadixKey.namespaceOf = (T.keyOf p).map RadixKey.namespaceOf

/-- Every node but the root holds its hashes. -/
def AllHashed (T : HashTree Digest) : Prop := ∀ i, T.Live i → i ≠ T.root → hashOf T i ≠ none

theorem saltOf_eq : saltOf T i = ((T.keyOf i).map RadixKey.namespaceOf).bind Prod.snd := by
  rw [saltOf]
  cases T.keyOf i <;> rfl

theorem live_of_hashOf (e : hashOf T i = some hs) : T.Live i := by
  obtain ⟨a, ha, -⟩ := Option.bind_eq_some_iff.mp e
  exact live_of_dataOf ha

theorem live_of_eventHashOf (e : eventHashOf T i = some hs) : T.Live i := by
  obtain ⟨a, ha, -⟩ := Option.bind_eq_some_iff.mp e
  exact live_of_dataOf ha

/-! ### The shape decides what is wanted -/

section Shape

variable (s : SameShape T T')

include s

theorem sameShape_wanted (h : T.WF c.ops) (hi : T.Live i) :
    wanted c T' seed i = wanted c T seed i :=
  wanted_congr (s.spellTo h hi) (s.keyOf i)

theorem sameShape_saltOf : saltOf T' i = saltOf T i := by rw [saltOf, saltOf, s.keyOf]

/-- A tree of the same shape keeps the invariant if the lists that it holds are wanted. -/
theorem Right.of_sameShape (h : Right c T) (hroot : hashOf T' T.root = some [])
    (hhash : ∀ j hs, j ≠ T.root → hashOf T' j = some hs →
      hashOf T j = some hs ∨ hs = wanted c T none j)
    (hevent : ∀ j hs, j ≠ T.root → eventHashOf T' j = some hs → eventHashOf T j = some hs ∨
      ∃ salt, saltOf T j = some salt ∧ hs = wanted c T (some (c.saltHash salt)) j)
    (hup : ∀ j q, T.parentOf j = some q → q ≠ T.root → eventHashOf T' j ≠ none →
      eventHashOf T' q ≠ none) : Right c T' where
  wf := s.wf h.wf
  root_hash := by rw [s.root]; exact hroot
  hash := fun j hs hj e => by
    rw [s.root] at hj
    rw [sameShape_wanted s h.wf (s.live.mp (live_of_hashOf e))]
    exact (hhash j hs hj e).elim (h.hash j hs hj) id
  event := fun j hs hj e => by
    rw [s.root] at hj
    rw [sameShape_saltOf s]
    simp only [sameShape_wanted s h.wf (s.live.mp (live_of_eventHashOf e))]
    exact (hevent j hs hj e).elim (h.event j hs hj) id
  event_up := fun j q hq hr => by
    rw [s.parentOf] at hq
    rw [s.root] at hr
    exact hup j q hq hr
  namespaces := fun j q hq hr => by
    rw [s.parentOf] at hq
    rw [s.root] at hr
    rw [s.keyOf, s.keyOf]
    exact h.namespaces j q hq hr

end Shape

/-! ### Setting a list -/

theorem hashOf_setHash : hashOf (setHash T i hs) j =
    if j = i then (T.dataOf i).map fun _ => hs else hashOf T j := by
  rw [hashOf, setHash, dataOf_modifyData]
  split_ifs with e
  · cases T.dataOf i <;> rfl
  · rfl

theorem eventHashOf_setHash : eventHashOf (setHash T i hs) j = eventHashOf T j := by
  rw [eventHashOf, setHash, dataOf_modifyData]
  split_ifs with e
  · rw [e, eventHashOf]
    cases T.dataOf i <;> rfl
  · rfl

theorem hashOf_setEventHash : hashOf (setEventHash T i hs) j = hashOf T j := by
  rw [hashOf, setEventHash, dataOf_modifyData]
  split_ifs with e
  · rw [e, hashOf]
    cases T.dataOf i <;> rfl
  · rfl

theorem eventHashOf_setEventHash : eventHashOf (setEventHash T i hs) j =
    if j = i then (T.dataOf i).map fun _ => hs else eventHashOf T j := by
  rw [eventHashOf, setEventHash, dataOf_modifyData]
  split_ifs with e
  · cases T.dataOf i <;> rfl
  · rfl

theorem sameShape_setHash : SameShape T (setHash T i hs) := SameShape.modifyData T i _

theorem sameShape_setEventHash : SameShape T (setEventHash T i hs) := SameShape.modifyData T i _

theorem hashOf_setHash_self (hi : T.Live i) : hashOf (setHash T i hs) i = some hs := by
  obtain ⟨a, ha⟩ := hi.data
  rw [hashOf_setHash, if_pos rfl, ha, Option.map_some]

theorem eventHashOf_setEventHash_self (hi : T.Live i) :
    eventHashOf (setEventHash T i hs) i = some hs := by
  obtain ⟨a, ha⟩ := hi.data
  rw [eventHashOf_setEventHash, if_pos rfl, ha, Option.map_some]

theorem Right.setHash (h : Right c T) (hp : T.parentOf i = some p) :
    Right c (setHash T i (wanted c T none i)) := by
  have hi := live_of_parentOf hp
  refine h.of_sameShape sameShape_setHash ?_ ?_ ?_ ?_
  · rw [hashOf_setHash, if_neg (h.wf.ne_root_of_parentOf hp).symm, h.root_hash]
  · intro j hs hj e
    by_cases hji : j = i
    · subst hji
      rw [hashOf_setHash_self hi, Option.some.injEq] at e
      exact .inr e.symm
    · rw [hashOf_setHash, if_neg hji] at e
      exact .inl e
  · intro j hs hj e
    rw [eventHashOf_setHash] at e
    exact .inl e
  · intro j q hq hr hne
    rw [eventHashOf_setHash] at hne ⊢
    exact h.event_up j q hq hr hne

theorem Right.setEventHash {salt : String} (h : Right c T) (hp : T.parentOf i = some p)
    (hsalt : saltOf T i = some salt) (hup : p = T.root ∨ eventHashOf T p ≠ none) :
    Right c (setEventHash T i (wanted c T (some (c.saltHash salt)) i)) := by
  have hi := live_of_parentOf hp
  refine h.of_sameShape sameShape_setEventHash ?_ ?_ ?_ ?_
  · rw [hashOf_setEventHash, h.root_hash]
  · intro j hs hj e
    rw [hashOf_setEventHash] at e
    exact .inl e
  · intro j hs hj e
    by_cases hji : j = i
    · subst hji
      rw [eventHashOf_setEventHash_self hi, Option.some.injEq] at e
      exact .inr ⟨salt, hsalt, e.symm⟩
    · rw [eventHashOf_setEventHash, if_neg hji] at e
      exact .inl e
  · intro j q hq hr hne
    by_cases hqi : q = i
    · rw [hqi, eventHashOf_setEventHash_self hi]
      exact Option.some_ne_none _
    · rw [eventHashOf_setEventHash, if_neg hqi]
      by_cases hji : j = i
      · subst hji
        obtain rfl : p = q := Option.some.inj (hp.symm.trans hq)
        exact hup.resolve_left hr
      · rw [eventHashOf_setEventHash, if_neg hji] at hne
        exact h.event_up j q hq hr hne

/-! ### Changing the tree -/

section Leaf

variable {d : ChildKey} {a : NodeHashes Digest}

/-- A new leaf may come with the hashes that go on from its parent. -/
theorem Right.addLeaf (h : Right c T) (s : LeafOk c.ops T p d k) (hns : Continues T p k)
    (hhash : ∀ hs, a.hashValue = some hs →
      hs = chainOf c.pageHash c.pageSize (digestAt c T none p) k.logicalUnits)
    (hevent : a.eventHashValue = none) : Right c (T.addLeaf p d k a) := by
  have hpc := h.wf.ne_counter s.live
  have hrc := h.wf.root_ne_counter
  have hparent : ∀ j, (T.addLeaf p d k a).parentOf j =
      if j = T.counter then some p else T.parentOf j := fun j => parentOf_addLeaf hpc
  have hkey : ∀ j, (T.addLeaf p d k a).keyOf j =
      if j = T.counter then some k else T.keyOf j := fun j => keyOf_addLeaf hpc
  have hdata : ∀ j, (T.addLeaf p d k a).dataOf j =
      if j = T.counter then some a else T.dataOf j := fun j => dataOf_addLeaf hpc
  have hwf := h.wf.addLeaf (a := a) s
  have hwanted : ∀ seed j, T.Live j → wanted c (T.addLeaf p d k a) seed j = wanted c T seed j :=
    fun seed j hj => wanted_congr (h.wf.spellTo_addLeaf s hj)
      ((hkey j).trans (if_neg (h.wf.ne_counter hj)))
  have hevents : ∀ j, eventHashOf (T.addLeaf p d k a) j =
      if j = T.counter then none else eventHashOf T j := fun j => by
    rw [eventHashOf, hdata]
    split_ifs with e
    · exact hevent
    · rfl
  refine ⟨hwf, ?_, ?_, ?_, ?_, ?_⟩
  · rw [root_addLeaf, hashOf, hdata, if_neg hrc]
    exact h.root_hash
  · intro j hs hj e
    rw [hashOf, hdata] at e
    split_ifs at e with hjc
    · subst hjc
      rw [wanted_cons hwf ((hparent _).trans (if_pos rfl)) ((hkey _).trans (if_pos rfl)),
        digestAt_congr (h.wf.spellTo_addLeaf s s.live)]
      exact hhash hs e
    · rw [hwanted _ _ (live_of_hashOf e)]
      exact h.hash j hs hj e
  · intro j hs hj e
    rw [hevents] at e
    split_ifs at e with hjc
    obtain ⟨salt, hsalt, hw⟩ := h.event j hs hj e
    refine ⟨salt, ?_, ?_⟩
    · rw [saltOf, hkey, if_neg hjc]
      exact hsalt
    · rw [hwanted _ _ (live_of_eventHashOf e)]
      exact hw
  · intro j q hq hr hne
    rw [hparent] at hq
    rw [hevents] at hne ⊢
    split_ifs at hq hne with hjc
    · exact absurd rfl hne
    · rw [if_neg (h.wf.ne_counter (h.wf.parent_live hq))]
      exact h.event_up j q hq hr hne
  · intro j q hq hr
    rw [hparent] at hq
    rw [hkey, hkey]
    split_ifs at hq with hjc
    · obtain rfl : p = q := Option.some.inj hq
      rw [if_pos hjc, if_neg hpc]
      exact (hns.resolve_left hr).symm
    · rw [if_neg hjc, if_neg (h.wf.ne_counter (h.wf.parent_live hq))]
      exact h.namespaces j q hq hr

theorem Right.removeLeaf (h : Right c T) (s : RemoveOk c.ops T i d) :
    Right c (T.removeLeaf i d) := by
  obtain ⟨p, b⟩ := h.wf.below s.live s.ne_root
  have hkey : ∀ j, (T.removeLeaf i d).keyOf j = if j = i then none else T.keyOf j :=
    fun j => b.keyOf_removeLeaf
  have hdata : ∀ j, (T.removeLeaf i d).dataOf j = if j = i then none else T.dataOf j :=
    fun j => b.dataOf_removeLeaf
  have hhash : ∀ j, hashOf (T.removeLeaf i d) j = if j = i then none else hashOf T j := fun j => by
    rw [hashOf, hdata]
    split_ifs <;> rfl
  have hevent : ∀ j, eventHashOf (T.removeLeaf i d) j =
      if j = i then none else eventHashOf T j := fun j => by
    rw [eventHashOf, hdata]
    split_ifs <;> rfl
  have hwanted : ∀ seed j, T.Live j → j ≠ i →
      wanted c (T.removeLeaf i d) seed j = wanted c T seed j := fun seed j hj hji =>
    wanted_congr (h.wf.spellTo_removeLeaf s hj hji) ((hkey j).trans (if_neg hji))
  refine ⟨h.wf.removeLeaf s, ?_, ?_, ?_, ?_, ?_⟩
  · rw [root_removeLeaf, hhash, if_neg s.ne_root.symm, h.root_hash]
  · intro j hs hj e
    rw [root_removeLeaf] at hj
    rw [hhash] at e
    split_ifs at e with hji
    rw [hwanted _ _ (live_of_hashOf e) hji]
    exact h.hash j hs hj e
  · intro j hs hj e
    rw [root_removeLeaf] at hj
    rw [hevent] at e
    split_ifs at e with hji
    obtain ⟨salt, hsalt, hw⟩ := h.event j hs hj e
    refine ⟨salt, ?_, ?_⟩
    · rw [saltOf, hkey, if_neg hji]
      exact hsalt
    · rw [hwanted _ _ (live_of_eventHashOf e) hji]
      exact hw
  · intro j q hq hr hne
    rw [root_removeLeaf] at hr
    rw [b.parentOf_removeLeaf] at hq
    rw [hevent] at hne ⊢
    split_ifs at hq hne with hji
    have hqi : q ≠ i := fun e => s.childless j (e ▸ hq)
    rw [if_neg hqi]
    exact h.event_up j q hq hr hne
  · intro j q hq hr
    rw [root_removeLeaf] at hr
    rw [b.parentOf_removeLeaf] at hq
    split_ifs at hq with hji
    have hqi : q ≠ i := fun e => s.childless j (e ▸ hq)
    rw [hkey, hkey, if_neg hji, if_neg hqi]
    exact h.namespaces j q hq hr

end Leaf

section Split

variable {dTop dRest : ChildKey} {len : Nat}

theorem logicalUnits_take (k : RadixKey) (n : Nat) :
    (c.ops.take n k).logicalUnits = k.logicalUnits.take n := by
  have e := c.ops.units_take k n
  rw [RadixKey.ops_units, RadixKey.ops_units] at e
  rw [← map_snd_units, e, List.map_take, map_snd_units]

theorem namespaceOf_getSlice (k : RadixKey) (start stop : Nat) :
    (k.getSlice start stop).namespaceOf = k.namespaceOf := by
  rw [RadixKey.getSlice]
  split_ifs <;> rfl

/-- A split cuts the wanted list where it cuts the segment. -/
theorem wanted_splitNode (seed : Option Digest) (h : T.WF c.ops) (s : SplitOk c.ops T i dTop dRest len k) :
    wanted c (splitNode c T i dTop dRest len) seed T.counter =
        (wanted c T seed i).take (len / c.pageSize) ∧
      wanted c (splitNode c T i dTop dRest len) seed i =
        (wanted c T seed i).drop (len / c.pageSize) ∧
      ∀ j, T.Live j → j ≠ i →
        wanted c (splitNode c T i dTop dRest len) seed j = wanted c T seed j := by
  obtain ⟨p, b⟩ := h.below s.live s.ne_root
  have hic := h.ne_counter s.live
  have hwf : (splitNode c T i dTop dRest len).WF c.ops := h.split s
  have hpn : (splitNode c T i dTop dRest len).parentOf T.counter = some p := by
    rw [splitNode, b.parentOf_split, if_pos rfl]
  have hpi : (splitNode c T i dTop dRest len).parentOf i = some T.counter := by
    rw [splitNode, b.parentOf_split, if_neg hic, if_pos rfl]
  have hkn : (splitNode c T i dTop dRest len).keyOf T.counter = some (c.ops.take len k) := by
    rw [splitNode, b.keyOf_split, if_pos rfl, s.key, Option.map_some]
  have hspell : ∀ j, T.Live j → (splitNode c T i dTop dRest len).spellTo c.ops j =
      T.spellTo c.ops j := fun j hj => h.spellTo_split s hj
  have hlt : len < k.len := by simpa using s.lt
  obtain ⟨m, hm⟩ : c.pageSize ∣ len := s.page_dvd
  have hdiv : len / c.pageSize = m := by rw [hm, Nat.mul_div_cancel_left _ c.pageSize_pos]
  have htop : (k.logicalUnits.take len).length = m * c.pageSize := by
    rw [List.length_take, length_logicalUnits, min_eq_left hlt.le, hm, Nat.mul_comm]
  refine ⟨?_, ?_, fun j hj hji => wanted_congr (hspell j hj) ?_⟩
  · have happ := chainOf_append (H := c.pageHash) c.pageSize_pos (digestAt c T seed p) htop
      (k.logicalUnits.drop len)
    rw [List.take_append_drop] at happ
    rw [wanted_cons hwf hpn hkn, digestAt_congr (hspell p b.live), logicalUnits_take,
      wanted_cons h b.parent s.key, happ, hdiv, List.take_left']
    rw [length_chainOf, htop, numPagesOf_mul c.pageSize_pos]
  · have hdepth : (splitNode c T i dTop dRest len).depth c.ops T.counter / c.pageSize =
        T.depth c.ops p / c.pageSize + m := by
      rw [depth, splitNode, h.spellTo_split_new s b.parent, List.length_append, List.length_take,
        min_eq_left s.lt.le, hm, Nat.add_mul_div_left _ _ c.pageSize_pos, depth]
    rw [wanted, wanted, pathUnits, hspell i s.live, pagesAbove_eq hwf hpi, hdepth,
      pagesAbove_eq h b.parent, hdiv, List.drop_drop, pathUnits]
  · rw [splitNode, b.keyOf_split, if_neg (h.ne_counter hj), if_neg hji]

theorem hashOf_splitNode (b : T.Below i p) (j : NodeId) :
    hashOf (splitNode c T i dTop dRest len) j =
      if j = T.counter then (hashOf T i).map (·.take (len / c.pageSize))
      else if j = i then (hashOf T i).map (·.drop (len / c.pageSize)) else hashOf T j := by
  rw [hashOf, splitNode, b.dataOf_split, hashOf, hashOf]
  split_ifs <;> cases T.dataOf i <;> rfl

theorem eventHashOf_splitNode (b : T.Below i p) (j : NodeId) :
    eventHashOf (splitNode c T i dTop dRest len) j =
      if j = T.counter then (eventHashOf T i).map (·.take (len / c.pageSize))
      else if j = i then (eventHashOf T i).map (·.drop (len / c.pageSize))
      else eventHashOf T j := by
  rw [eventHashOf, splitNode, b.dataOf_split, eventHashOf, eventHashOf]
  split_ifs <;> cases T.dataOf i <;> rfl

theorem allHashed_splitNode (h : Right c T) (s : SplitOk c.ops T i dTop dRest len k)
    (hall : AllHashed T) : AllHashed (splitNode c T i dTop dRest len) := by
  obtain ⟨p, b⟩ := h.wf.below s.live s.ne_root
  have hi := hall i s.live s.ne_root
  intro j hj hjr
  rw [hashOf_splitNode b]
  split_ifs with hjc hji
  · simpa using hi
  · simpa using hi
  · refine hall j ((b.live_split.mp hj).resolve_left hjc) ?_
    rwa [splitNode, root_split] at hjr

theorem Right.splitNode (h : Right c T) (s : SplitOk c.ops T i dTop dRest len k) :
    Right c (splitNode c T i dTop dRest len) := by
  obtain ⟨p, b⟩ := h.wf.below s.live s.ne_root
  have hic := h.wf.ne_counter s.live
  have hrc := h.wf.root_ne_counter
  have hroot : (PageHash.splitNode c T i dTop dRest len).root = T.root := root_split
  have hparent : ∀ j, (PageHash.splitNode c T i dTop dRest len).parentOf j =
      if j = T.counter then some p else if j = i then some T.counter else T.parentOf j :=
    fun j => b.parentOf_split
  have hns : ∀ j, ((PageHash.splitNode c T i dTop dRest len).keyOf j).map RadixKey.namespaceOf =
      if j = T.counter then some k.namespaceOf else (T.keyOf j).map RadixKey.namespaceOf :=
    fun j => by
      rw [PageHash.splitNode, b.keyOf_split, s.key]
      split_ifs with hjc hji
      · exact congrArg some (namespaceOf_getSlice k _ _)
      · rw [hji, s.key]
        exact congrArg some (namespaceOf_getSlice k _ _)
      · rfl
  have hsalt : ∀ j, saltOf (PageHash.splitNode c T i dTop dRest len) j =
      if j = T.counter then saltOf T i else saltOf T j := fun j => by
    rw [saltOf_eq, hns, saltOf_eq, saltOf_eq, s.key]
    split_ifs <;> rfl
  have hhash : ∀ j, hashOf (PageHash.splitNode c T i dTop dRest len) j = _ := hashOf_splitNode b
  have hevent : ∀ j, eventHashOf (PageHash.splitNode c T i dTop dRest len) j = _ :=
    eventHashOf_splitNode b
  have hwanted := fun seed => wanted_splitNode seed h.wf s
  have hir := s.ne_root
  refine ⟨h.wf.split s, ?_, ?_, ?_, ?_, ?_⟩
  · rw [hroot, hhash, if_neg hrc, if_neg hir.symm, h.root_hash]
  · intro j hs hj e
    rw [hroot] at hj
    rw [hhash] at e
    obtain ⟨htop, hrest, hother⟩ := hwanted none
    split_ifs at e with hjc hji
    · obtain ⟨hs₀, e₀, rfl⟩ := Option.map_eq_some_iff.mp e
      rw [hjc, htop, ← h.hash i hs₀ hir e₀]
    · obtain ⟨hs₀, e₀, rfl⟩ := Option.map_eq_some_iff.mp e
      rw [hji, hrest, ← h.hash i hs₀ hir e₀]
    · rw [hother j (live_of_hashOf e) hji]
      exact h.hash j hs hj e
  · intro j hs hj e
    rw [hroot] at hj
    rw [hevent] at e
    rw [hsalt]
    split_ifs at e with hjc hji
    · obtain ⟨hs₀, e₀, rfl⟩ := Option.map_eq_some_iff.mp e
      obtain ⟨salt, hsi, rfl⟩ := h.event i hs₀ hir e₀
      rw [if_pos hjc, hjc]
      exact ⟨salt, hsi, (hwanted _).1.symm⟩
    · obtain ⟨hs₀, e₀, rfl⟩ := Option.map_eq_some_iff.mp e
      obtain ⟨salt, hsi, rfl⟩ := h.event i hs₀ hir e₀
      rw [if_neg hjc, hji]
      exact ⟨salt, hsi, (hwanted _).2.1.symm⟩
    · obtain ⟨salt, hsj, hw⟩ := h.event j hs hj e
      rw [if_neg hjc]
      exact ⟨salt, hsj, by rw [(hwanted _).2.2 j (live_of_eventHashOf e) hji, hw]⟩
  · -- the new node holds event hashes when `i` does
    intro j q hq hr hne
    rw [hroot] at hr
    rw [hparent] at hq
    rw [hevent] at hne ⊢
    split_ifs at hq hne with hjc hji
    · obtain rfl : p = q := Option.some.inj hq
      rw [if_neg b.parent_ne_counter, if_neg b.ne.symm]
      exact h.event_up i p b.parent hr (by simpa using hne)
    · obtain rfl : T.counter = q := Option.some.inj hq
      rw [if_pos rfl]
      simpa using hne
    · have hup := h.event_up j q hq hr hne
      rw [if_neg (h.wf.ne_counter (h.wf.parent_live hq))]
      split_ifs with hqi
      · rw [hqi] at hup
        simpa using hup
      · exact hup
  · intro j q hq hr
    rw [hroot] at hr
    rw [hparent] at hq
    rw [hns, hns]
    split_ifs at hq with hjc hji
    · obtain rfl : p = q := Option.some.inj hq
      rw [if_pos hjc, if_neg b.parent_ne_counter, ← h.namespaces i p b.parent hr, s.key,
        Option.map_some]
    · obtain rfl : T.counter = q := Option.some.inj hq
      rw [if_neg hjc, if_pos rfl, hji, s.key, Option.map_some]
    · rw [if_neg hjc, if_neg (h.wf.ne_counter (h.wf.parent_live hq))]
      exact h.namespaces j q hq hr

end Split

end SglangRuntime.PageHash
