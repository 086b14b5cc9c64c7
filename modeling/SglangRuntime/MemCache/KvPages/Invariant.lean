import SglangRuntime.MemCache.KvPages.Tree

/-!
# Memory cache — who holds which page

The books of the system (`Inv`): the tree keeps its own invariant with the requests' locks, every
request's own part of its row covers pages, the node that a request has locked spells the part of its
tokens that the row shares with the tree, and every page is counted once.
-/

namespace SglangRuntime.KvPages

open Foundation Foundation.Trie List RadixKey Extension Req
open RadixCache (Books Reshaped Relocked Inserted slotsOf)

variable {g : ServerConfig} {s s' : RadixCache} {a a' : PagedAllocator} {r : Req}
  {reqs : Multiset Req} {n : Nat} {now : Int} {vals : List Slot} {node i : NodeId} {free : List Int}
  {batch : List (Req × Nat)}

/-! ### Keys of a request -/

/-- The units of the tokens of a request. -/
def Req.units (g : ServerConfig) (r : Req) : List (Namespace × LogicalUnit) :=
  unitsOf (r.extraKey, r.cacheSalt) g.cache.isEagle r.tokens

variable (ns : Namespace)

variable (b : Bool)

variable (t : List Int)

theorem unitsOf_take (n : Nat) :
    unitsOf ns b (t.take n) =
      (unitsOf ns b t).take (if b then n - 1 else n) := by
  cases b with
  | false => simp [unitsOf, map_take]
  | true =>
    simp only [unitsOf, if_true]
    cases n with
    | zero => simp
    | succ n => rw [zip_tail_take, map_take, Nat.add_sub_cancel]

theorem length_unitsOf :
    (unitsOf ns b t).length = if b then t.length - 1 else t.length := by
  cases b <;> simp [unitsOf]

/-- More tokens continue the units. -/
theorem unitsOf_append_take (t' : List Int)
    (hn : n ≤ (unitsOf ns b t).length) :
    (unitsOf ns b (t ++ t')).take n = (unitsOf ns b t).take n := by
  have e := unitsOf_take ns b (t ++ t') t.length
  rw [take_left' rfl] at e
  rw [e, take_take]
  rw [length_unitsOf] at hn
  rw [Nat.min_eq_left hn]

section Key

variable {n : Nat}

/-- A key spells a part of the units of its tokens. -/
theorem units_eq_take (k : RadixKey) :
    ∃ n, k.units = (unitsOf k.namespaceOf k.isBigram k.tokenIds).take n :=
  ⟨_, unitsOf_take k.namespaceOf k.isBigram k.tokenIds k.rawLen⟩

/-- The key of the first `n` tokens, before it is cut to whole pages. -/
def Req.fullKey (g : ServerConfig) (r : Req) (n : Nat) : RadixKey :=
  ⟨r.tokens.take n, r.extraKey, r.cacheSalt, g.cache.isEagle, none⟩

theorem units_fullKey (g : ServerConfig) (r : Req) (n : Nat) :
    (r.fullKey g n).units = (r.units g).take (numUnits g n) := by
  have hraw : (r.fullKey g n).rawTokenIds = r.tokens.take n := by
    rw [rawTokenIds, Req.fullKey, rawLen, take_length]
  rw [units_eq, hraw, Req.units, numUnits]
  exact unitsOf_take _ _ _ _

theorem len_fullKey (hn : n ≤ r.tokens.length) : (r.fullKey g n).len = numUnits g n := by
  have hlen : (r.tokens.take n).length = n := length_take_of_le hn
  simp only [len, rawLen, fullKey, numUnits, hlen]

theorem len_radixKey (hn : n ≤ r.tokens.length) :
    (r.radixKey g n).len = numUnits g n / g.cache.pageSize * g.cache.pageSize := by
  have := len_pageAligned (r.fullKey g n) g.cache.pageSize_pos
  rwa [len_fullKey hn] at this

theorem dvd_len_radixKey (g : ServerConfig) (r : Req) (n : Nat) :
    g.cache.pageSize ∣ (r.radixKey g n).len := by
  have := len_pageAligned (r.fullKey g n) g.cache.pageSize_pos
  exact this ▸ Nat.dvd_mul_left _ _

theorem len_radixKey_le (hn : n ≤ r.tokens.length) : (r.radixKey g n).len ≤ n := by
  rw [len_radixKey hn]
  have := Nat.div_mul_le_self (numUnits g n) g.cache.pageSize
  have : numUnits g n ≤ n := by
    unfold numUnits
    split_ifs <;> omega
  omega

theorem units_radixKey (hn : n ≤ r.tokens.length) :
    (r.radixKey g n).units = (r.units g).take (r.radixKey g n).len := by
  have h := units_pageAligned (r.fullKey g n) g.cache.pageSize_pos
  rw [len_fullKey hn, units_fullKey, take_take,
    Nat.min_eq_left (Nat.div_mul_le_self _ _), ← len_radixKey hn] at h
  exact h

/-- The key is already in the view that the cache wants. -/
theorem maybeToBigramView_radixKey (g : ServerConfig) (r : Req) (n : Nat) :
    (r.radixKey g n).maybeToBigramView g.cache.isEagle = r.radixKey g n := by
  have hb : (r.radixKey g n).isBigram = g.cache.isEagle := by
    simp only [radixKey, pageAligned, sliceTo, getSlice]
    split_ifs <;> rfl
  rw [maybeToBigramView, hb]
  cases g.cache.isEagle <;> rfl

/-- It has whole pages, so it is read as it is. -/
theorem units_viewKey_radixKey (g : ServerConfig) (r : Req) (n : Nat) :
    (g.cache.viewKey (r.radixKey g n)).units = (r.radixKey g n).units := by
  rw [CacheInitParams.viewKey, maybeToBigramView_radixKey,
    units_pageAligned _ g.cache.pageSize_pos,
    Nat.div_mul_cancel (dvd_len_radixKey g r n), ← length_units, take_length]

theorem len_view_radixKey (g : ServerConfig) (r : Req) (n : Nat) :
    (g.cache.viewKey (r.radixKey g n)).len = (r.radixKey g n).len := by
  rw [← length_units, units_viewKey_radixKey, length_units]

/-- The key of a lookup spells a part of the tokens. -/
theorem units_viewKey_start (g : ServerConfig) (r : Req) (limit : Option Nat) :
    ∃ k, (g.cache.viewKey ⟨r.tokens, r.extraKey, r.cacheSalt, false, limit⟩).units =
      (r.units g).take k := by
  have hview : (mk r.tokens r.extraKey r.cacheSalt false limit).maybeToBigramView
      g.cache.isEagle = ⟨r.tokens, r.extraKey, r.cacheSalt, g.cache.isEagle, limit⟩ := by
    cases h : g.cache.isEagle <;> rfl
  obtain ⟨k, hk⟩ := units_eq_take ⟨r.tokens, r.extraKey, r.cacheSalt, g.cache.isEagle, limit⟩
  rw [CacheInitParams.viewKey, hview, units_pageAligned _ g.cache.pageSize_pos, hk,
    take_take]
  exact ⟨_, rfl⟩

end Key

/-! ### The invariant -/

/-- What holds of a request with a row. -/
structure ReqInv (g : ServerConfig) (s : RadixCache) (r : Req) : Prop where
  live : s.tree.Live r.lastNode
  spell : s.tree.spellTo g.cache.ops r.lastNode = (r.units g).take r.cacheProtectedLen
  le_units : r.cacheProtectedLen ≤ (r.units g).length
  le_row : r.cacheProtectedLen ≤ r.row.length
  paged : ∃ pages, Covers g.cache.pageSize r.privateRow pages

/-- How often page `p` is in the request's own part of its row. -/
def Req.privateCount (g : ServerConfig) (p : Int) (r : Req) : Nat :=
  (pagesOf g.cache.pageSize r.privateRow).count p

structure Inv (g : ServerConfig) (st : State) : Prop where
  tree : RadixCache.Inv g.cache st.cache (st.reqs.map lastNode)
  paged : NodesPaged g.cache st.cache
  req : ∀ r ∈ st.reqs, ReqInv g st.cache r
  account : ∀ p, (st.allocator.count p : Int) + treeCount g.cache st.cache p +
    ((st.reqs.map (privateCount g p)).sum : Nat) =
      if 1 ≤ p ∧ p ≤ (g.numPages : Int) then 1 else 0

section

variable (h : ReqInv g s r)
include h

theorem ReqInv.keeps (hk : Keeps g.cache s s' r.lastNode) : ReqInv g s' r :=
  ⟨hk.live, hk.spell.trans h.spell, h.le_units, h.le_row, h.paged⟩

section

variable (hwf : s.tree.WF g.cache.ops)
include hwf

/-- The shared part of a row has whole pages. -/
theorem ReqInv.dvd :
    g.cache.pageSize ∣ r.cacheProtectedLen := by
  have := hwf.page_dvd_spellTo h.live
  rwa [h.spell, length_take, Nat.min_eq_left h.le_units] at this

/-- **A locked prefix is cached**: a walk along the tokens goes at least that far. -/
theorem ReqInv.le_longest {m : Nat}
    (hn : n ≤ r.tokens.length) (hle : r.cacheProtectedLen ≤ (r.radixKey g n).len)
    (hm : RadixKey.LongestAlong g.cache.pageSize_pos s.tree [] (r.radixKey g n).units m) :
    r.cacheProtectedLen ≤ m := by
  rcases Nat.eq_zero_or_pos r.cacheProtectedLen with h0 | hpos
  · omega
  have hdvd := h.dvd hwf
  refine (hm.2.2 r.cacheProtectedLen hpos hdvd ?_).mp ?_
  · rwa [length_units]
  have e : (r.radixKey g n).units.take r.cacheProtectedLen =
      s.tree.spellTo g.cache.ops r.lastNode := by
    rw [units_radixKey hn, take_take, Nat.min_eq_left hle, h.spell]
  have hlen : (s.tree.spellTo g.cache.ops r.lastNode).length = r.cacheProtectedLen := by
    rw [h.spell, length_take, Nat.min_eq_left h.le_units]
  rw [nil_append, e]
  obtain ⟨j, k, hat⟩ := hwf.at_of_spellTo_prefix h.live prefix_rfl (hlen ▸ hpos)
    (hlen ▸ hdvd)
  exact ⟨j, k, hat⟩

/-- The part of the row that is the tree's fits into a key that covers its units. -/
theorem ReqInv.le_radixKey
    (hn : n ≤ r.tokens.length) (hle : r.cacheProtectedLen ≤ numUnits g n) :
    r.cacheProtectedLen ≤ (r.radixKey g n).len := by
  obtain ⟨k, hk⟩ := h.dvd hwf
  rw [len_radixKey hn, hk, Nat.mul_comm]
  refine Nat.mul_le_mul_right _ ((Nat.le_div_iff_mul_le g.cache.pageSize_pos).mpr ?_)
  rw [Nat.mul_comm, ← hk]
  exact hle

/-! ### Lookups -/

end

end

/-- A step that only reshapes the tree. -/
theorem Inv.reshape (h : Inv g ⟨s, a, reqs⟩) (hr : Reshaped g.cache s s') :
    Inv g ⟨s', a, reqs⟩ := by
  obtain ⟨hp, hcount⟩ := reshaped_pages h.tree.books h.paged hr
  refine ⟨h.tree.reshape hr, hp, fun r hm => (h.req r hm).keeps ?_, fun p => ?_⟩
  · exact reshaped_keeps h.tree.books hr (h.req r hm).live
  · have := h.account p
    simp only [hcount p]
    exact this

/-- The lookup of a cache that is switched off. -/
theorem matchPrefix_disabled (hd : g.cache.disable) (key : RadixKey) (now : Int) :
    s.matchPrefix g.cache key now = some (s, [], s.tree.root) := by
  simp [RadixCache.matchPrefix, hd]

theorem Inv.matchPrefix (h : Inv g ⟨s, a, reqs⟩) {key : RadixKey} (hm : s.matchPrefix g.cache key now = some (s', vals, node)) :
    Inv g ⟨s', a, reqs⟩ ∧ s'.tree.Live node ∧
      s'.tree.spellTo g.cache.ops node = (g.cache.viewKey key).units.take vals.length ∧
      vals.length ≤ (g.cache.viewKey key).units.length := by
  cases hd : g.cache.disable with
  | true =>
    rw [matchPrefix_disabled hd] at hm
    cases hm
    have hwf := h.tree.books.wf
    exact ⟨h, hwf.root_live, hwf.spellTo_root, Nat.zero_le _⟩
  | false =>
    obtain ⟨s₁, vals', node', e, hr, hans, hlive, hspell⟩ :=
      RadixCache.matchPrefix_spec_node h.tree.books hd key now
    cases hm.symm.trans e
    exact ⟨h.reshape hr, hlive, hspell, hans.1.1⟩

/-! ### Locks -/

theorem incLockRef_pages (h : RadixCache.Inv g.cache s (reqs.map lastNode))
    (hp : NodesPaged g.cache s) (hi : s.tree.Live i) :
    NodesPaged g.cache (s.incLockRef g.cache i).1 ∧
      (∀ p, treeCount g.cache (s.incLockRef g.cache i).1 p = treeCount g.cache s p) ∧
      ∀ j, s.tree.Live j → Keeps g.cache s (s.incLockRef g.cache i).1 j := by
  cases hd : g.cache.disable with
  | true =>
    have e : (s.incLockRef g.cache i).1 = s := by simp [RadixCache.incLockRef, hd]
    rw [e]
    exact ⟨hp, fun _ => rfl, fun j hj => ⟨hj, rfl⟩⟩
  | false =>
    obtain ⟨-, hr⟩ := h.relocked_incLockRef hd hi
    obtain ⟨hp', hcount⟩ := relocked_pages hp hr
    exact ⟨hp', hcount, fun j hj => relocked_keeps h.books hr hj⟩

theorem decLockRef_pages {held : Multiset NodeId} (h : RadixCache.Inv g.cache s held)
    (hp : NodesPaged g.cache s) (hi : i ∈ held) :
    NodesPaged g.cache (s.decLockRef g.cache i).1 ∧
      (∀ p, treeCount g.cache (s.decLockRef g.cache i).1 p = treeCount g.cache s p) ∧
      ∀ j, s.tree.Live j → Keeps g.cache s (s.decLockRef g.cache i).1 j := by
  cases hd : g.cache.disable with
  | true =>
    have e : (s.decLockRef g.cache i).1 = s := by simp [RadixCache.decLockRef, hd]
    rw [e]
    exact ⟨hp, fun _ => rfl, fun j hj => ⟨hj, rfl⟩⟩
  | false =>
    obtain ⟨-, hr⟩ := h.relocked_decLockRef hd hi
    obtain ⟨hp', hcount⟩ := relocked_pages hp hr
    exact ⟨hp', hcount, fun j hj => relocked_keeps h.books hr hj⟩

/-- **A request starts** with the prefix that it found. -/
theorem Inv.start (h : Inv g ⟨s, a, reqs⟩) {limit : Option Nat}
    (hm : s.matchPrefix g.cache ⟨r.tokens, r.extraKey, r.cacheSalt, false, limit⟩ now =
      some (s', vals, node)) :
    Inv g ⟨(s'.incLockRef g.cache node).1, a,
      { r with row := vals, cacheProtectedLen := vals.length, lastNode := node } ::ₘ reqs⟩ := by
  obtain ⟨h', hlive, hspell, hle⟩ := h.matchPrefix hm
  obtain ⟨k, hk⟩ := units_viewKey_start g r limit
  have hmin : vals.length ≤ k ∧ vals.length ≤ (r.units g).length := by
    rw [hk, length_take] at hle
    omega
  rw [hk, take_take, Nat.min_eq_left hmin.1] at hspell
  obtain ⟨hp, hcount, hkeep⟩ := incLockRef_pages h'.tree h'.paged hlive
  have hpriv : vals.drop vals.length = [] := drop_length
  refine ⟨?_, hp, fun q hq => ?_, fun p => ?_⟩
  · rw [Multiset.map_cons]
    exact h'.tree.incLockRef hlive
  · rcases Multiset.mem_cons.mp hq with rfl | hq
    · have hk' := hkeep node hlive
      refine ⟨hk'.live, hk'.spell.trans hspell, hmin.2, le_rfl, [], ?_⟩
      rw [privateRow, hpriv]
      exact Covers.nil g.cache.pageSize_pos
    · exact (h'.req q hq).keeps (hkeep _ (h'.req q hq).live)
  · have hnew : privateCount g p
        { r with row := vals, cacheProtectedLen := vals.length, lastNode := node } = 0 := by
      rw [privateCount, privateRow, hpriv, (Covers.nil g.cache.pageSize_pos).pagesOf_eq
        g.cache.pageSize_pos]
      rfl
    have := h'.account p
    simp only [Multiset.map_cons, Multiset.sum_cons, hnew, hcount p, Nat.zero_add]
    exact this

/-! ### Allocation -/

/-- The row of a request grows. -/
theorem ReqInv.grow (h : ReqInv g s r) {out : List Slot} {new : List Int}
    (hout : ∀ pages, Covers g.cache.pageSize r.privateRow pages →
      Covers g.cache.pageSize (r.privateRow ++ out) (pages ++ new)) :
    ReqInv g s { r with row := r.row ++ out } ∧
      ∀ p, privateCount g p { r with row := r.row ++ out } =
        r.privateCount g p + new.count p := by
  have hpriv : ({ r with row := r.row ++ out } : Req).privateRow = r.privateRow ++ out :=
    drop_append_of_le_length h.le_row
  obtain ⟨pages, hc⟩ := h.paged
  have hc' := hout pages hc
  have hps := g.cache.pageSize_pos
  refine ⟨⟨h.live, h.spell, h.le_units, ?_, _, hpriv ▸ hc'⟩, fun p => ?_⟩
  · rw [length_append]
    exact h.le_row.trans (Nat.le_add_right _ _)
  · rw [privateCount, privateCount, hpriv, hc'.pagesOf_eq hps, hc.pagesOf_eq hps,
      count_append]

/-- What `alloc_extend` hands to a request continues its row. -/
theorem ReqInv.extend (h : ReqInv g s r) (hwf : s.tree.WF g.cache.ops) (hn : r.row.length ≤ n)
    (hfree : numNewPages g.cache.pageSize ⟨r.row.length, n, lastLoc r.row⟩ ≤
      free.length) :
    ∀ pages, Covers g.cache.pageSize r.privateRow pages →
      Covers g.cache.pageSize
        (r.privateRow ++ slots g.cache.pageSize ⟨r.row.length, n, lastLoc r.row⟩ free)
        (pages ++ free.take
          (numNewPages g.cache.pageSize ⟨r.row.length, n, lastLoc r.row⟩)) := by
  intro pages hc
  obtain ⟨k, hk⟩ := h.dvd hwf
  have hlen : r.row.length = k * g.cache.pageSize + r.privateRow.length := by
    have := h.le_row
    rw [privateRow, length_drop, Nat.mul_comm k, ← hk]
    omega
  refine slots_covers g.cache.pageSize_pos hc hlen (fun hne => ?_) hn hfree
  -- the last slot of the row is in the request's own part
  have hlast : r.row.getLast? = r.privateRow.getLast? := by
    conv_lhs => rw [← take_append_drop r.cacheProtectedLen r.row]
    exact getLast?_append_of_ne_nil _ hne
  obtain ⟨x, hx⟩ := Option.ne_none_iff_exists'.mp (mt getLast?_eq_none_iff.mp hne)
  simp only [lastLoc, hlast, hx, Option.getD_some]

/-- **A batch of extensions** takes its pages from the front of the free list. -/
theorem extend_batch (hwf : s.tree.WF g.cache.ops)
    (hb : ∀ x ∈ batch, ReqInv g s x.1 ∧ x.1.row.length ≤ x.2)
    {es : List Extension} (hes : es = batch.map fun x => ⟨x.1.row.length, x.2, lastLoc x.1.row⟩)
    (hfree : (es.map (·.numNewPages g.cache.pageSize)).sum ≤ free.length) :
    (∀ r' ∈ List.zipWith (fun r out => { r with row := r.row ++ out }) (batch.map Prod.fst)
        (allocExtendKernel g.cache.pageSize es free), ReqInv g s r') ∧
      (List.zipWith (fun (r : Req) out => { r with row := r.row ++ out }) (batch.map Prod.fst)
        (allocExtendKernel g.cache.pageSize es free)).map lastNode =
          (batch.map Prod.fst).map lastNode ∧
      ∀ p, ((List.zipWith (fun (r : Req) out => { r with row := r.row ++ out })
          (batch.map Prod.fst) (allocExtendKernel g.cache.pageSize es free)).map
            (privateCount g p)).sum =
        ((batch.map Prod.fst).map (privateCount g p)).sum +
          (free.take (es.map (·.numNewPages g.cache.pageSize)).sum).count p := by
  subst hes
  induction batch generalizing free with
  | nil => simp
  | cons x batch ih =>
    obtain ⟨hx, hxlen⟩ := hb x mem_cons_self
    simp only [map_cons, sum_cons] at hfree
    have hfirst : numNewPages g.cache.pageSize ⟨x.1.row.length, x.2, lastLoc x.1.row⟩ ≤
        free.length := by omega
    have hrest : ((batch.map fun x => (⟨x.1.row.length, x.2, lastLoc x.1.row⟩ : Extension)).map
        (·.numNewPages g.cache.pageSize)).sum ≤ (free.drop (numNewPages
          g.cache.pageSize ⟨x.1.row.length, x.2, lastLoc x.1.row⟩)).length := by
      rw [length_drop]
      omega
    obtain ⟨h₁, h₂, h₃⟩ := ih (fun y hy => hb y (mem_cons_of_mem _ hy)) hrest
    obtain ⟨hgrow, hcount⟩ := hx.grow (hx.extend hwf hxlen hfirst)
    simp only [map_cons, sum_cons, allocExtendKernel, zipWith_cons_cons]
    refine ⟨fun r' hr' => ?_, ?_, fun p => ?_⟩
    · rcases mem_cons.mp hr' with rfl | hr'
      · exact hgrow
      · exact h₁ r' hr'
    · rw [h₂]
    · rw [h₃ p, hcount p, take_add, count_append]
      omega

/-- **An allocation** moves pages from the free list to the rows. -/
theorem Inv.granted (h : Inv g ⟨s, a, ↑batch' + reqs⟩)
    (hbatch : batch' = batch.map Prod.fst) (hlen : ∀ x ∈ batch, x.1.row.length ≤ x.2)
    {outs : List (List Slot)} (hg : PagedAllocator.Granted g.pool a a'
      (batch.map fun x => ⟨x.1.row.length, x.2, lastLoc x.1.row⟩) outs free) :
    Inv g ⟨s, a', ↑(List.zipWith (fun (r : Req) out => { r with row := r.row ++ out }) batch' outs) +
      reqs⟩ := by
  subst hbatch
  have hreq : ∀ x ∈ batch, ReqInv g s x.1 ∧ x.1.row.length ≤ x.2 := fun x hx =>
    ⟨h.req x.1 (Multiset.mem_add.mpr (.inl (mem_map_of_mem hx))), hlen x hx⟩
  obtain ⟨h₁, h₂, h₃⟩ := extend_batch h.tree.books.wf hreq rfl hg.enough
  have houts := hg.outs_eq
  simp only [ServerConfig.pool] at houts
  rw [← houts] at h₁ h₂ h₃
  refine ⟨?_, h.paged, fun r' hr' => ?_, fun p => ?_⟩
  · have := h.tree
    rw [Multiset.map_add, Multiset.map_coe] at this ⊢
    rw [h₂]
    exact this
  · rcases Multiset.mem_add.mp hr' with hr' | hr'
    · exact h₁ r' hr'
    · exact h.req r' (Multiset.mem_add.mpr (.inr hr'))
  · have e₁ := h.account p
    have e₂ := hg.count p
    have e₃ := h₃ p
    simp only [Multiset.map_add, Multiset.map_coe, Multiset.sum_add, Multiset.sum_coe,
      ServerConfig.pool] at e₁ e₂ e₃ ⊢
    omega

end SglangRuntime.KvPages
