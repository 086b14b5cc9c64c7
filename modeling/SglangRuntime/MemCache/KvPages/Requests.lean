import SglangRuntime.MemCache.KvPages.Invariant

/-!
# Memory cache — requests keep the books

What `cache_unfinished_req`, `release_kv_cache` and `evict` do to the holders of the pages.  The pages
of a row are counted from the start of the request's own part (`Req.upTo`): every segment that is
handed over starts at a page boundary, so what it moves is a difference of two such counts.
-/

namespace SglangRuntime.KvPages

open Foundation Foundation.Trie List Multiset RadixCache PagedAllocator Req Option
open RadixCache (Books Reshaped Inserted)

variable {g : ServerConfig} {s s' : RadixCache} {a a' : PagedAllocator} {r : Req}
  {reqs : Multiset Req} {n i : Nat} {priority : Option Int} {chunked isInsert : Bool} {now : Int}

/-! ### Counting along a row -/

/-- How often page `p` is in the request's own part of the row before position `b`. -/
def Req.upTo (g : ServerConfig) (r : Req) (p : Int) (b : Nat) : Nat :=
  ((pagesOf g.cache.pageSize r.privateRow).take
    (numPagesOf g.cache.pageSize (b - r.cacheProtectedLen))).count p

theorem Req.length_privateRow (r : Req) :
    r.privateRow.length = r.row.length - r.cacheProtectedLen :=
  length_drop

theorem Req.upTo_protected (g : ServerConfig) (r : Req) (p : Int) :
    r.upTo g p r.cacheProtectedLen = 0 := by
  rw [upTo, Nat.sub_self, numPagesOf_zero g.cache.pageSize_pos]
  rfl

namespace ReqInv

section

variable (h : ReqInv g s r)
include h

theorem upTo_length (p : Int) : r.upTo g p r.row.length = r.privateCount g p := by
  obtain ⟨pages, hc⟩ := h.paged
  rw [upTo, privateCount, hc.pagesOf_eq g.cache.pageSize_pos, ← r.length_privateRow,
    ← hc.length, take_length]

section

variable (hwf : s.tree.WF g.cache.ops) {i : Nat}
include hwf

/-- A segment of the row. -/
theorem count_slice {j : Nat}
    (hi : r.cacheProtectedLen ≤ i) (hd : g.cache.pageSize ∣ i) (hij : i ≤ j)
    (hj : j ≤ r.row.length) (p : Int) :
    (pagesOf g.cache.pageSize (slice r.row i j)).count p + r.upTo g p i = r.upTo g p j := by
  obtain ⟨pages, hc⟩ := h.paged
  have hps := g.cache.pageSize_pos
  obtain ⟨q, hq⟩ := Nat.dvd_sub hd (h.dvd hwf)
  have hq' : q * g.cache.pageSize = i - r.cacheProtectedLen := by rw [hq, Nat.mul_comm]
  have hseg : slice r.row i j =
      slice r.privateRow (q * g.cache.pageSize) (j - r.cacheProtectedLen) := by
    rw [privateRow, slice_drop, hq', Nat.sub_add_cancel hi, Nat.sub_add_cancel (hi.trans hij)]
  have := hc.count_slice hps (i := q) (b := j - r.cacheProtectedLen) (by omega)
    (by rw [r.length_privateRow]; omega) p
  rw [upTo, upTo, hc.pagesOf_eq hps, ← hq', numPagesOf_mul hps, hseg]
  exact this

/-- A page that is begun counts whole. -/
theorem upTo_ceil {b : Nat} (hb : r.cacheProtectedLen ≤ b) (p : Int) :
    r.upTo g p (numPagesOf g.cache.pageSize b * g.cache.pageSize) = r.upTo g p b ∧
      ∀ j, b ≤ j → j ≤ numPagesOf g.cache.pageSize b * g.cache.pageSize →
        r.upTo g p j = r.upTo g p b := by
  have hps := g.cache.pageSize_pos
  obtain ⟨k, hk⟩ := h.dvd hwf
  obtain ⟨b', rfl⟩ := Nat.exists_eq_add_of_le hb
  have hceil : numPagesOf g.cache.pageSize (r.cacheProtectedLen + b') * g.cache.pageSize -
      r.cacheProtectedLen = numPagesOf g.cache.pageSize b' * g.cache.pageSize := by
    rw [hk, Nat.mul_comm g.cache.pageSize, numPagesOf_mul_add hps, Nat.add_mul]
    omega
  have hnum : numPagesOf g.cache.pageSize
      (numPagesOf g.cache.pageSize (r.cacheProtectedLen + b') * g.cache.pageSize -
        r.cacheProtectedLen) = numPagesOf g.cache.pageSize b' := by
    rw [hceil, numPagesOf_mul hps]
  have hb' : r.cacheProtectedLen + b' - r.cacheProtectedLen = b' := by omega
  refine ⟨by rw [upTo, upTo, hnum, hb'], fun j hj hle => ?_⟩
  have hmid : numPagesOf g.cache.pageSize (j - r.cacheProtectedLen) =
      numPagesOf g.cache.pageSize b' := by
    refine Nat.le_antisymm ?_ (numPagesOf_mono (by omega))
    rw [← hnum]
    exact numPagesOf_mono (by omega)
  rw [upTo, upTo, hmid, hb']

/-- The row from a page boundary on. -/
theorem covers_drop (hi : r.cacheProtectedLen ≤ i) (hd : g.cache.pageSize ∣ i) :
    ∃ pages, Covers g.cache.pageSize (r.row.drop i) pages := by
  obtain ⟨pages, hc⟩ := h.paged
  obtain ⟨q, hq⟩ := Nat.dvd_sub hd (h.dvd hwf)
  have hpriv : r.row.drop i = r.privateRow.drop (q * g.cache.pageSize) := by
    rw [privateRow, drop_drop, Nat.mul_comm q, ← hq, Nat.add_sub_cancel' hi]
  exact ⟨_, hpriv ▸ hc.drop g.cache.pageSize_pos q⟩

theorem count_drop
    (hi : r.cacheProtectedLen ≤ i) (hd : g.cache.pageSize ∣ i) (hle : i ≤ r.row.length) (p : Int) :
    (pagesOf g.cache.pageSize (r.row.drop i)).count p + r.upTo g p i = r.privateCount g p := by
  have := h.count_slice hwf hi hd hle le_rfl p
  rwa [slice, take_length, h.upTo_length] at this

end

end

end ReqInv

theorem numUnits_le (g : ServerConfig) (n : Nat) : numUnits g n ≤ n := by
  unfold numUnits
  split_ifs <;> omega

/-! ### Handing a row to the tree -/

/-- `insert` of a request's key. -/
theorem insertRow_spec (h : Books g.cache s ∅) (hd : g.cache.disable = false) {m : Nat}
    {values : List Slot} (hlen : values.length = (r.radixKey g n).len)
    (e : insertRow g s (r.radixKey g n) values priority chunked now = some (s', m)) :
    Inserted g.cache s s' (g.cache.viewKey (r.radixKey g n)) values m := by
  unfold insertRow at e
  split_ifs at e with hle
  obtain ⟨s₁, m₁, node, hins, hi⟩ := insert_spec h hd
    { key := r.radixKey g n, value := some values, priority := some (priority.getD 0)
      chunked := chunked, value_long := fun v hv => by cases hv; exact hle } now
  rw [hins] at e
  cases e
  have hval : insertValue g.cache
      { key := r.radixKey g n, value := some values, priority := some (priority.getD 0)
        chunked := chunked, value_long := fun v hv => by cases hv; exact hle } = values := by
    exact take_of_length_le (by rw [hlen, len_view_radixKey])
  rwa [hval] at hi

/-- The key of the first `n` tokens, for a request that has slots for them and whose shared part lies
within their units. -/
structure Fits (g : ServerConfig) (r : Req) (n : Nat) : Prop where
  tokens : n ≤ r.tokens.length
  row : n ≤ r.row.length
  covers : r.cacheProtectedLen ≤ numUnits g n

/-- **The tree takes over** what it does not have: the segment of the row behind the cached prefix. -/
theorem Inv.insertRow {m : Nat} (h : Inv g ⟨s, a, r ::ₘ reqs⟩) (hd : g.cache.disable = false)
    (hf : Fits g r n)
    (e : insertRow g s (r.radixKey g n) ((r.row.take n).take (r.radixKey g n).len) priority chunked
      now = some (s', m)) :
    RadixCache.Inv g.cache s' (r.lastNode ::ₘ reqs.map lastNode) ∧ NodesPaged g.cache s' ∧
      (∀ i, s.tree.Live i → Keeps g.cache s s' i) ∧
      (r.cacheProtectedLen ≤ m ∧ m ≤ (r.radixKey g n).len ∧ g.cache.pageSize ∣ m) ∧
      ∀ p, treeCount g.cache s' p + r.upTo g p m =
        treeCount g.cache s p + r.upTo g p (r.radixKey g n).len := by
  have hK := len_radixKey_le (g := g) hf.tokens
  have hreq := h.req r (mem_cons_self _ _)
  have hb := h.tree.books
  have hrow := hf.row
  have hval : (r.row.take n).take (r.radixKey g n).len = r.row.take (r.radixKey g n).len := by
    rw [take_take, Nat.min_eq_left hK]
  rw [hval] at e
  have hlen : (r.row.take (r.radixKey g n).len).length = (r.radixKey g n).len := by
    rw [length_take]
    omega
  have hi := insertRow_spec hb hd hlen e
  have hm := hi.longest
  rw [units_viewKey_radixKey] at hm
  have hle : r.cacheProtectedLen ≤ m :=
    hreq.le_longest hb.wf hf.tokens (hreq.le_radixKey hb.wf hf.tokens hf.covers) hm
  have hmK : m ≤ (r.radixKey g n).len := by
    have := hm.1
    rwa [RadixKey.length_units] at this
  have hKrow : (r.radixKey g n).len ≤ r.row.length := by omega
  -- the segment that the tree takes covers pages, as a part of the request's own part
  obtain ⟨pages, hc⟩ := hreq.paged
  have hps := g.cache.pageSize_pos
  obtain ⟨q, hq⟩ := Nat.dvd_sub hm.2.1 (hreq.dvd hb.wf)
  have hseg : (r.row.take (r.radixKey g n).len).drop m = (r.privateRow.take
      ((r.radixKey g n).len - r.cacheProtectedLen)).drop (q * g.cache.pageSize) := by
    have := slice_drop r.row (q * g.cache.pageSize)
      ((r.radixKey g n).len - r.cacheProtectedLen) r.cacheProtectedLen
    rw [Nat.mul_comm q, ← hq, Nat.sub_add_cancel hle, Nat.sub_add_cancel (hle.trans hmK)] at this
    rw [Nat.mul_comm q, ← hq]
    exact this.symm
  have hcov := (hc.take hps (k := (r.radixKey g n).len - r.cacheProtectedLen)
    (by rw [r.length_privateRow]; omega)).drop hps q
  rw [← hseg] at hcov
  obtain ⟨hp, hcount⟩ := inserted_pages hb h.paged hi (by rw [hlen, len_view_radixKey]) hcov
  refine ⟨?_, hp, fun i hl => inserted_keeps hb hi hl, ⟨hle, hmK, hm.2.1⟩, fun p => ?_⟩
  · have := h.tree.inserted hd hi
    rwa [Multiset.map_cons] at this
  have e₁ := hcount p
  have e₂ := hreq.count_slice hb.wf hle hm.2.1 hmK hKrow p
  rw [← hcov.pagesOf_eq hps] at e₁
  rw [slice] at e₂
  simp only at e₁
  omega

/-- Overwriting the row between the shared part and the end of the key. -/
theorem drop_overwrite {row xs : List Slot} {k : Nat} (hik : i ≤ k) (hi : i ≤ row.length)
    (hxs : xs.length = k) :
    (overwrite row i (xs.drop i)).drop k = row.drop k ∧ k ≤ (overwrite row i (xs.drop i)).length := by
  have hfront : (row.take i ++ xs.drop i).length = k := by
    rw [length_append, length_take, length_drop]
    omega
  rw [overwrite, length_drop, hxs, Nat.add_sub_cancel' hik]
  refine ⟨drop_left' hfront, ?_⟩
  rw [length_append, hfront]
  exact Nat.le_add_right _ _

/-- What a request leaves behind when it is taken off: its lock is gone, and the pages of its own part
are distributed. -/
structure TakenOff (g : ServerConfig) (s s' : RadixCache) (reqs : Multiset Req) : Prop where
  tree : RadixCache.Inv g.cache s' (reqs.map lastNode)
  paged : NodesPaged g.cache s'
  keeps : ∀ q ∈ reqs, Keeps g.cache s s' q.lastNode

/-- `dec_lock_ref` by a request. -/
theorem takenOff_decLockRef (h : RadixCache.Inv g.cache s' (r.lastNode ::ₘ reqs.map lastNode))
    (hp : NodesPaged g.cache s') (hk : ∀ q ∈ reqs, Keeps g.cache s s' q.lastNode) :
    TakenOff g s (s'.decLockRef g.cache r.lastNode).1 reqs ∧
      (∀ p, treeCount g.cache (s'.decLockRef g.cache r.lastNode).1 p = treeCount g.cache s' p) ∧
      ∀ i, s'.tree.Live i → Keeps g.cache s' (s'.decLockRef g.cache r.lastNode).1 i := by
  have hmem : r.lastNode ∈ r.lastNode ::ₘ reqs.map lastNode := Multiset.mem_cons_self _ _
  obtain ⟨hp', hcount, hkeep⟩ := decLockRef_pages h hp hmem
  refine ⟨⟨?_, hp', fun q hq => (hk q hq).trans (hkeep _ (hk q hq).live)⟩, hcount, hkeep⟩
  have := h.decLockRef hmem
  rwa [Multiset.erase_cons_head] at this

theorem Inv.req_keeps (h : Inv g ⟨s, a, r ::ₘ reqs⟩)
    (hk : ∀ i, s.tree.Live i → Keeps g.cache s s' i) :
    ∀ q ∈ reqs, Keeps g.cache s s' q.lastNode := fun q hq =>
  hk _ (h.req q (mem_cons_of_mem hq)).live

/-- **`cache_unfinished_req`**: the whole pages of the fill ids become the tree's. -/
theorem Inv.cacheUnfinishedReq (h : Inv g ⟨s, a, r ::ₘ reqs⟩) (hf : Fits g r n) {now' : Int} {r' : Req}
    (e : cacheUnfinishedReq g s a r n chunked now now' = some (s', a', r')) :
    Inv g ⟨s', a', r' ::ₘ reqs⟩ := by
  unfold KvPages.cacheUnfinishedReq at e
  cases hd : g.cache.disable with
  | true =>
    rw [hd, if_pos rfl] at e
    cases e
    exact h
  | false =>
    rw [hd, if_neg Bool.false_ne_true] at e
    simp only [length_take, Nat.min_eq_left hf.tokens] at e
    obtain ⟨⟨s₁, m⟩, hins, e⟩ := bind_eq_some_iff.mp e
    obtain ⟨⟨s₂, vals, node⟩, hmatch, e⟩ := bind_eq_some_iff.mp e
    simp only at e hmatch
    split_ifs at e with hlen
    cases e
    have hreq := h.req r (Multiset.mem_cons_self _ _)
    have hK := len_radixKey_le (g := g) hf.tokens
    have hrow := hf.row
    obtain ⟨ht₁, hp₁, hk₁, ⟨hle, hmK, hdm⟩, hcount₁⟩ := h.insertRow hd hf hins
    obtain ⟨s₂', vals', node', hmatch', hr, hans, hlive, hspell⟩ :=
      matchPrefix_spec_node ht₁.books hd (r.radixKey g n) now'
    cases hmatch.symm.trans hmatch'
    obtain ⟨hp₂, hcount₂⟩ := reshaped_pages ht₁.books hp₁ hr
    have hk₂ : ∀ i, s.tree.Live i → Keeps g.cache s s₂ i := fun i hi =>
      (hk₁ i hi).trans (reshaped_keeps ht₁.books hr (hk₁ i hi).live)
    obtain ⟨ht₃, hcount₃, hk₃⟩ := takenOff_decLockRef (ht₁.reshape hr) hp₂ (h.req_keeps hk₂)
    have hlive₃ := hk₃ node hlive
    obtain ⟨hp₄, hcount₄, hk₄⟩ := incLockRef_pages ht₃.tree ht₃.paged hlive₃.live
    have hkeep := hlive₃.trans (hk₄ node hlive₃.live)
    have hunits : (r.radixKey g n).len ≤ (r.units g).length := by
      have := congrArg List.length (units_radixKey (g := g) hf.tokens)
      rw [RadixKey.length_units, length_take] at this
      omega
    rw [units_viewKey_radixKey, hlen, units_radixKey hf.tokens, take_take,
      Nat.min_self] at hspell
    have hP : r.cacheProtectedLen ≤ (r.radixKey g n).len := hle.trans hmK
    have hKrow : (r.radixKey g n).len ≤ r.row.length := hK.trans hrow
    obtain ⟨hdrop, hlenrow⟩ := drop_overwrite hP hreq.le_row hlen
    have hwf := h.tree.books.wf
    have hdK := dvd_len_radixKey g r n
    obtain ⟨pages, hcov⟩ := hreq.covers_drop hwf hP hdK
    refine ⟨?_, hp₄, fun q hq => ?_, fun p => ?_⟩
    · rw [Multiset.map_cons]
      exact ht₃.tree.incLockRef hlive₃.live
    · rcases Multiset.mem_cons.mp hq with rfl | hq
      · refine ⟨hkeep.live, hkeep.spell.trans (hlen ▸ hspell), hlen ▸ hunits, ?_, ?_⟩
        · exact hlen ▸ hlenrow
        · refine ⟨pages, ?_⟩
          rw [privateRow, hlen, hdrop]
          exact hcov
      · have hkq := ht₃.keeps q hq
        exact (h.req q (Multiset.mem_cons_of_mem hq)).keeps (hkq.trans (hk₄ _ hkq.live))
    · have hpriv : privateCount g p
          { r with
            row := overwrite r.row r.cacheProtectedLen (vals.drop r.cacheProtectedLen)
            cacheProtectedLen := vals.length
            lastNode := node } =
          (pagesOf g.cache.pageSize (r.row.drop (r.radixKey g n).len)).count p := by
        rw [privateCount, privateRow, hlen, hdrop]
      have hfree := count_freeSegment (c := g.pool) a
        (l := slice (r.row.take n) r.cacheProtectedLen m) (hreq.dvd hwf) p
      rw [slice_take _ (hmK.trans hK)] at hfree
      have e₀ := h.account p
      have e₁ := hreq.count_slice hwf le_rfl (hreq.dvd hwf) hle (hmK.trans hKrow) p
      have e₂ := hreq.count_drop hwf hP hdK hKrow p
      have e₃ := hcount₁ p
      have e₄ := r.upTo_protected g p
      simp only [Multiset.map_cons, Multiset.sum_cons, hpriv, hcount₄ p, hcount₃ p, hcount₂ p]
        at e₀ ⊢
      rw [slice_take _ (hmK.trans hK), hfree]
      simp only [ServerConfig.pool]
      omega

/-! ### Release -/

/-- `_release_overallocated_kv_indices` frees what is behind the last page that was begun. -/
theorem releaseOverallocated_count (h : ReqInv g s r) (hwf : s.tree.WF g.cache.ops)
    (hi : r.cacheProtectedLen ≤ i) (hle : i ≤ r.row.length)
    (e : releaseOverallocatedKvIndices g a r i r.row.length = some a') (p : Int) :
    a'.count p + r.upTo g p i = a.count p + r.privateCount g p := by
  have hps := g.cache.pageSize_pos
  have hceil : (if 1 < g.cache.pageSize then numPagesOf g.cache.pageSize i * g.cache.pageSize
      else i) = numPagesOf g.cache.pageSize i * g.cache.pageSize := by
    split_ifs with h1
    · rfl
    · have : g.cache.pageSize = 1 := by omega
      rw [this, numPagesOf]
      omega
  obtain ⟨hup, hmid⟩ := h.upTo_ceil hwf hi p
  unfold releaseOverallocatedKvIndices at e
  rw [hceil] at e
  split at e
  · cases e
  simp only at e
  split_ifs at e with hlt
  · cases e
    have hge := le_numPagesOf_mul hps i
    have hdvd : g.cache.pageSize ∣ numPagesOf g.cache.pageSize i * g.cache.pageSize :=
      Nat.dvd_mul_left _ _
    have hseg := h.count_slice hwf (hi.trans hge) hdvd hlt.le le_rfl p
    rw [h.upTo_length] at hseg
    rw [count_freeSegment (c := g.pool) a hdvd]
    simp only [ServerConfig.pool]
    omega
  · cases e
    rw [← hmid _ hle (Nat.le_of_not_lt hlt), h.upTo_length]

/-- **`cache_finished_req`** distributes the row up to the committed length. -/
theorem cacheFinishedReq_spec (h : Inv g ⟨s, a, r ::ₘ reqs⟩) (hf : Fits g r n)
    (e : cacheFinishedReq g s a r isInsert n now = some (s', a')) :
    TakenOff g s s' reqs ∧ ∀ p, (a'.count p : Int) + treeCount g.cache s' p =
      a.count p + treeCount g.cache s p + r.upTo g p n := by
  have hreq := h.req r (Multiset.mem_cons_self _ _)
  have hwf := h.tree.books.wf
  have htree := h.tree
  have hK := len_radixKey_le (g := g) hf.tokens
  have hrow := hf.row
  have hP : r.cacheProtectedLen ≤ (r.radixKey g n).len := hreq.le_radixKey hwf hf.tokens hf.covers
  have hdP := hreq.dvd hwf
  rw [Multiset.map_cons] at htree
  unfold cacheFinishedReq at e
  cases hd : g.cache.disable with
  | true =>
    rw [hd, if_pos rfl] at e
    cases e
    have hdec : (s.decLockRef g.cache r.lastNode).1 = s := by simp [decLockRef, hd]
    obtain ⟨ht, -⟩ := takenOff_decLockRef htree h.paged (h.req_keeps fun i hi => ⟨hi, rfl⟩)
    rw [hdec] at ht
    refine ⟨ht, fun p => ?_⟩
    have e₁ := hreq.count_slice hwf le_rfl hdP (hP.trans hK) hrow p
    have e₂ := r.upTo_protected g p
    rw [count_freeSegment (c := g.pool) a hdP p]
    simp only [ServerConfig.pool]
    omega
  | false =>
    rw [hd, if_neg Bool.false_ne_true] at e
    simp only [length_take, Nat.min_eq_left hf.tokens] at e
    obtain ⟨⟨s₁, m⟩, hins, e⟩ := map_eq_some_iff.mp e
    cases e
    -- with or without an insertion, the tree takes the row from `m` to the end of the key
    have hins' : RadixCache.Inv g.cache s₁ (r.lastNode ::ₘ reqs.map lastNode) ∧
        NodesPaged g.cache s₁ ∧ (∀ i, s.tree.Live i → Keeps g.cache s s₁ i) ∧
        (r.cacheProtectedLen ≤ m ∧ m ≤ (r.radixKey g n).len ∧ g.cache.pageSize ∣ m) ∧
        ∀ p, treeCount g.cache s₁ p + r.upTo g p m =
          treeCount g.cache s p + r.upTo g p (r.radixKey g n).len := by
      split_ifs at hins with hb
      · exact h.insertRow hd hf hins
      · cases hins
        exact ⟨htree, h.paged, fun i hi => ⟨hi, rfl⟩, ⟨hP, le_rfl, dvd_len_radixKey g r n⟩,
          fun p => rfl⟩
    obtain ⟨ht₁, hp₁, hk₁, ⟨hle, hmK, -⟩, hcount₁⟩ := hins'
    obtain ⟨ht, hcount, -⟩ := takenOff_decLockRef ht₁ hp₁ (h.req_keeps hk₁)
    refine ⟨ht, fun p => ?_⟩
    have hseg : slice (r.row.take n) r.cacheProtectedLen m = slice r.row r.cacheProtectedLen m :=
      slice_take _ (hmK.trans hK)
    have hlen : (slice r.row r.cacheProtectedLen m).length = m - r.cacheProtectedLen := by
      rw [slice, length_drop, length_take]
      omega
    have hsep : r.cacheProtectedLen + (slice r.row r.cacheProtectedLen m).length ≤
        (r.radixKey g n).len := by
      omega
    have e₁ := hreq.count_slice hwf le_rfl hdP hle (by omega) p
    have e₂ := hreq.count_slice hwf hP (dvd_len_radixKey g r n) hK hrow p
    have e₃ := r.upTo_protected g p
    have e₄ := hcount₁ p
    rw [hseg]
    change ((a.freeSegments g.pool [(slice r.row r.cacheProtectedLen m, r.cacheProtectedLen),
      (slice r.row (r.radixKey g n).len n, (r.radixKey g n).len)]).count p : Int) + _ = _
    rw [hcount p, count_freeSegments_two (c := g.pool) a hdP
      (dvd_len_radixKey g r n) hsep]
    simp only [ServerConfig.pool]
    omega

/-- **`release_kv_cache`** distributes the whole row of a request whose shared part is covered. -/
theorem Inv.releaseKvCache (h : Inv g ⟨s, a, r ::ₘ reqs⟩) (hok : r.Covered g)
    (htok : r.kvCommittedLen ≤ r.tokens.length) (hrow : r.kvCommittedLen ≤ r.row.length)
    (e : releaseKvCache g s a r isInsert now = some (s', a')) : Inv g ⟨s', a', reqs⟩ := by
  have hle : r.effectiveKvCommittedLen g ≤ r.kvCommittedLen := by
    unfold effectiveKvCommittedLen
    split_ifs
    · exact Nat.min_le_left _ _
    · exact le_rfl
  have hf : Fits g r (r.effectiveKvCommittedLen g) := ⟨hle.trans htok, hle.trans hrow, hok⟩
  obtain ⟨⟨s₁, a₁⟩, hfin, e⟩ := bind_eq_some_iff.mp e
  obtain ⟨a₂, hover, e⟩ := bind_eq_some_iff.mp e
  cases e
  have hreq := h.req r (Multiset.mem_cons_self _ _)
  obtain ⟨ht, hcount⟩ := cacheFinishedReq_spec h hf hfin
  refine ⟨ht.tree, ht.paged, fun q hq => ?_, fun p => ?_⟩
  · exact (h.req q (Multiset.mem_cons_of_mem hq)).keeps (ht.keeps q hq)
  have e₀ := h.account p
  have e₁ := hcount p
  have e₂ := releaseOverallocated_count hreq h.tree.books.wf
    (hok.trans (numUnits_le g _)) hf.row hover p
  simp only [Multiset.map_cons, Multiset.sum_cons] at e₀ ⊢
  omega

/-! ### Eviction and progress -/

theorem Inv.evict (h : Inv g ⟨s, a, reqs⟩) {numTokens : Nat} {rank : NodeId → Nat}
    (e : evict g s a numTokens rank = some (s', a')) : Inv g ⟨s', a', reqs⟩ := by
  unfold KvPages.evict at e
  cases hd : g.cache.disable with
  | true =>
    rw [hd, if_pos rfl] at e
    cases e
    exact h
  | false =>
    rw [hd, if_neg Bool.false_ne_true] at e
    obtain ⟨s₁, a₁, e', ht, hp, hcount, hkeep⟩ := evictLoop_spec (g := g) 0 h.tree h.paged
      (heapOk_leaves h.tree.books) (card_liveNodes_lt s)
    cases e.symm.trans e'
    refine ⟨ht, hp, fun q hq => (h.req q hq).keeps (hkeep _ (mem_map_of_mem _ hq)),
      fun p => ?_⟩
    have e₀ := h.account p
    have e₁ := hcount p
    simp only at e₀ e₁ ⊢
    omega

/-- A forward changes the tokens behind the shared part only. -/
theorem Inv.progress (h : Inv g ⟨s, a, r ::ₘ reqs⟩) (outputIds : List Int)
    (kvCommittedLen reasoningTokens : Nat) :
    Inv g ⟨s, a, { r with
      outputIds := r.outputIds ++ outputIds
      kvCommittedLen := kvCommittedLen
      reasoningTokens := reasoningTokens } ::ₘ reqs⟩ := by
  have hreq := h.req r (mem_cons_self _ _)
  have htokens : ({ r with
      outputIds := r.outputIds ++ outputIds
      kvCommittedLen := kvCommittedLen
      reasoningTokens := reasoningTokens } : Req).tokens = r.tokens ++ outputIds :=
    (append_assoc _ _ _).symm
  refine ⟨?_, h.paged, fun q hq => ?_, fun p => ?_⟩
  · have := h.tree
    rw [Multiset.map_cons] at this ⊢
    exact this
  · rcases mem_cons.mp hq with rfl | hq
    · refine ⟨hreq.live, ?_, ?_, hreq.le_row, hreq.paged⟩
      · rw [units, htokens, unitsOf_append_take _ _ _ _ hreq.le_units]
        exact hreq.spell
      · refine hreq.le_units.trans ?_
        rw [units, units, htokens, length_unitsOf, length_unitsOf, length_append]
        split_ifs <;> omega
    · exact h.req q (mem_cons_of_mem hq)
  · have := h.account p
    rw [Multiset.map_cons] at this ⊢
    exact this

end SglangRuntime.KvPages
