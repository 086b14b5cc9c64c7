import SglangRuntime.MemCache.KvPages.Requests

/-!
# Memory cache — every page is held once

`run_conserved`: in every run in which the requests that are released still have, within the tokens
whose KV they commit, the part of the row that the tree owns, each page of the pool is in one place:
free, in one node of the tree, or in the own part of one request.

Without the condition the statement is false.  With `strip_thinking_cache`, `release_kv_cache` cuts
the committed length of a request that has reasoned to its prompt, and the part that an earlier
`cache_unfinished_req` has given to the tree can be longer than that (`treePage_freed`).
-/

namespace SglangRuntime.KvPages

open Foundation Foundation.Trie List RadixCache PagedAllocator

variable {g : ServerConfig} {st st' : State}

/-! ### Steps and runs -/

theorem treeCount_reset (c : CacheInitParams) (p : Int) : treeCount c reset p = 0 := by
  rw [treeCount, total]
  refine Finset.sum_eq_zero fun i hi => ?_
  have h0 : i = 0 := Nat.lt_one_iff.mp (Finset.mem_range.mp hi)
  exact if_pos h0

/-- At the start every page is free. -/
theorem inv_init (g : ServerConfig) : Inv g (State.init g) := by
  have htree := inv_reset g.cache
  refine ⟨htree, fun i a hi ha => ?_, fun r hr => absurd hr (Multiset.notMem_zero r), fun p => ?_⟩
  · have hlive := live_of_dataOf ha
    have hlt : i < 1 := htree.books.wf.lt_counter hlive
    exact absurd (Nat.lt_one_iff.mp hlt) hi
  have hnodup : ((List.range g.numPages).map fun i : Nat => (i : Int) + 1).Nodup :=
    nodup_range.map fun i j e => by simpa using e
  have hmem : p ∈ ((List.range g.numPages).map fun i : Nat => (i : Int) + 1) ↔
      1 ≤ p ∧ p ≤ (g.numPages : Int) := by
    simp only [mem_map, mem_range]
    constructor
    · rintro ⟨i, hi, rfl⟩
      omega
    · rintro ⟨h1, h2⟩
      exact ⟨(p - 1).toNat, by omega, by omega⟩
  have hcount : (State.init g).allocator.count p =
      if 1 ≤ p ∧ p ≤ (g.numPages : Int) then 1 else 0 := by
    simp only [State.init, PagedAllocator.clear, PagedAllocator.count, append_nil,
      ServerConfig.pool, hnodup.count, hmem]
  have htree0 : treeCount g.cache (State.init g).cache p = 0 := treeCount_reset g.cache p
  rw [htree0, hcount]
  simp [State.init]

/-- `alloc_decode` is an extension by one token. -/
theorem Inv.decode {s : RadixCache} {a a' : PagedAllocator} {reqs : Multiset Req} {batch : List Req}
    {out : List Slot} (h : Inv g ⟨s, a, ↑batch + reqs⟩)
    (e : a.allocForDecode g.pool (batch.map fun r => ⟨r.row.length + 1, lastLoc r.row⟩) =
      some (out, a')) :
    Inv g ⟨s, a', ↑(List.zipWith (fun (r : Req) x => { r with row := r.row ++ [x] }) batch out) +
      reqs⟩ := by
  have hpos : ∀ d ∈ batch.map fun r => (⟨r.row.length + 1, lastLoc r.row⟩ : DecodeReq),
      0 < d.seqLen := by
    intro d hd
    obtain ⟨r, -, rfl⟩ := mem_map.mp hd
    exact Nat.succ_pos _
  obtain ⟨free, hg⟩ := allocForDecode_spec hpos e
  have hext : (batch.map fun r => (⟨r.row.length + 1, lastLoc r.row⟩ : DecodeReq)).map
      DecodeReq.toExtension = (batch.map fun r => (r, r.row.length + 1)).map
        fun x => (⟨x.1.row.length, x.2, lastLoc x.1.row⟩ : Extension) := by
    rw [map_map, map_map]
    exact map_congr_left fun r _ => rfl
  rw [hext] at hg
  have hfst : batch = (batch.map fun r => (r, r.row.length + 1)).map Prod.fst := by
    rw [map_map]
    exact (map_id' batch).symm
  have hlen : ∀ x ∈ batch.map fun r => (r, r.row.length + 1), x.1.row.length ≤ x.2 := by
    intro x hx
    obtain ⟨r, -, rfl⟩ := mem_map.mp hx
    exact Nat.le_succ _
  have := h.granted hfst hlen hg
  rwa [zipWith_map_right] at this

theorem Inv.step (h : Inv g st) (hs : Step g (Req.Covered g) st st') : Inv g st' := by
  cases hs with
  | matchPrefix key now e => exact (h.matchPrefix e).1
  | start r limit now e => exact h.start e
  | extend batch hlen e =>
    have hle : ∀ x ∈ batch.map fun x => (⟨x.1.row.length, x.2, lastLoc x.1.row⟩ : Extension),
        x.prefixLen ≤ x.seqLen := by
      intro x hx
      obtain ⟨y, hy, rfl⟩ := mem_map.mp hx
      exact hlen y hy
    obtain ⟨free, hg⟩ := allocForExtend_spec hle e
    exact h.granted rfl hlen hg
  | decode batch e => exact h.decode e
  | progress r out k n => exact h.progress out k n
  | cacheUnfinished n chunked now now' htok hrow hfill e =>
    exact h.cacheUnfinishedReq ⟨htok, hrow, hfill⟩ e
  | release isInsert now hok htok hrow e => exact h.releaseKvCache hok htok hrow e
  | evict n rank e => exact h.evict e

theorem inv_of_run (h : Run g (Req.Covered g) st) : Inv g st := by
  induction h with
  | init => exact inv_init g
  | step _ hs ih => exact ih.step hs

/-! ### Reading the books -/

/-- Where a sum is at most one, it counts. -/
theorem countP_eq_sum {α : Type} {m : Multiset α} {q : α → Prop} [DecidablePred q] {f : α → Nat}
    (hq : ∀ x ∈ m, q x ↔ 0 < f x) (hle : (m.map f).sum ≤ 1) : m.countP q = (m.map f).sum := by
  induction m using Multiset.induction_on with
  | empty => rfl
  | cons x m ih =>
    rw [Multiset.map_cons, Multiset.sum_cons] at hle ⊢
    have ih := ih (fun y hy => hq y (Multiset.mem_cons_of_mem hy)) (by omega)
    rw [Multiset.countP_cons, ih]
    have hx := hq x (Multiset.mem_cons_self x m)
    split_ifs with h
    · have := hx.mp h
      omega
    · have := mt hx.mpr h
      omega

theorem mem_pagesIn {l : List Slot} {pages : List Int} (hc : Covers g.cache.pageSize l pages)
    (p : Int) : p ∈ pagesIn g l ↔ 0 < (pagesOf g.cache.pageSize l).count p := by
  rw [hc.pagesOf_eq g.cache.pageSize_pos, count_pos_iff, hc.mem_iff g.cache.pageSize_pos]
  exact mem_map

/-- How often page `p` is in the slots of node `i`. -/
def nodeCount (g : ServerConfig) (s : RadixCache) (p : Int) (i : NodeId) : Nat :=
  (pagesOf g.cache.pageSize ((s.valueOf i).getD [])).count p

/-- A node has slots, or none. -/
theorem Inv.node (h : Inv g st) (p : Int) (i : NodeId) :
    (∃ pages, Covers g.cache.pageSize ((st.cache.valueOf i).getD []) pages) ∧
      st.cache.tree.weight (pageWeight g.cache p) i = nodeCount g st.cache p i ∧
      (0 < nodeCount g st.cache p i → st.cache.tree.Live i) := by
  have hps := g.cache.pageSize_pos
  have hnil : (pagesOf g.cache.pageSize ([] : List Int)).count p = 0 := by
    rw [(Covers.nil hps).pagesOf_eq hps]
    rfl
  by_cases hr : i = st.cache.tree.root
  · have hv : (st.cache.valueOf i).getD [] = [] := by
      rw [hr, valueOf_eq h.tree.books.root_data]
      rfl
    rw [nodeCount, hv, hnil, weight, if_pos hr]
    exact ⟨⟨[], Covers.nil hps⟩, rfl, fun h0 => absurd h0 (lt_irrefl 0)⟩
  by_cases hl : st.cache.tree.Live i
  · obtain ⟨k, hk⟩ := hl.key
    obtain ⟨a, ha⟩ := hl.data
    have hv : (st.cache.valueOf i).getD [] = slotsOf a := by
      rw [valueOf_eq ha]
      rfl
    rw [nodeCount, hv, weight_eq hr hk ha]
    exact ⟨h.paged i a hr ha, rfl, fun _ => hl⟩
  · have hv : (st.cache.valueOf i).getD [] = [] := by
      rcases hd : st.cache.tree.dataOf i with - | a
      · simp [valueOf, hd]
      · exact absurd (live_of_dataOf hd) hl
    have hw : st.cache.tree.weight (pageWeight g.cache p) i = 0 := by
      rcases hk : st.cache.tree.keyOf i with - | k
      · simp [weight, hk]
      · exact absurd (live_of_keyOf hk) hl
    rw [nodeCount, hv, hnil, hw]
    exact ⟨⟨[], Covers.nil hps⟩, rfl, fun h0 => absurd h0 (lt_irrefl 0)⟩

theorem Inv.treeCount_eq (h : Inv g st) (p : Int) : treeCount g.cache st.cache p =
    (((Multiset.range st.cache.tree.counter).map (nodeCount g st.cache p)).sum : Nat) := by
  have hsum : ((Multiset.range st.cache.tree.counter).map (nodeCount g st.cache p)).sum =
      ∑ i ∈ Finset.range st.cache.tree.counter, nodeCount g st.cache p i := rfl
  rw [treeCount, total, hsum, Nat.cast_sum]
  exact Finset.sum_congr rfl fun i _ => (h.node p i).2.1

theorem Inv.conserved (h : Inv g st) : Conserved g st := by
  intro p
  have hacc := h.account p
  rw [h.treeCount_eq p] at hacc
  have hnodes : (st.cache.liveNodes.filter fun i =>
      p ∈ pagesIn g ((st.cache.valueOf i).getD [])).card =
        ((Multiset.range st.cache.tree.counter).map (nodeCount g st.cache p)).sum := by
    have hmem : ∀ i, p ∈ pagesIn g ((st.cache.valueOf i).getD []) ↔
        0 < nodeCount g st.cache p i := fun i => by
      obtain ⟨⟨pages, hc⟩, -⟩ := h.node p i
      exact mem_pagesIn hc p
    rw [← countP_eq_sum (fun i _ => hmem i) (by split_ifs at hacc <;> omega),
      Multiset.countP_eq_card_filter, liveNodes, Finset.filter_filter]
    refine congrArg Finset.card (Finset.filter_congr fun i _ => ?_)
    exact ⟨fun h' => h'.2, fun h' => ⟨(h.node p i).2.2 ((hmem i).mp h'), h'⟩⟩
  have hreqs : st.reqs.countP (fun r => p ∈ pagesIn g r.privateRow) =
      (st.reqs.map (Req.privateCount g p)).sum := by
    refine countP_eq_sum (fun r hr => ?_) ?_
    · obtain ⟨pages, hc⟩ := (h.req r hr).paged
      exact mem_pagesIn hc p
    · split_ifs at hacc <;> omega
  rw [State.holders, hnodes, hreqs]
  split_ifs at hacc ⊢ <;> omega

/-- **Every page is held exactly once**, in every state that is reached while the released requests
are covered. -/
theorem run_conserved (h : Run g (Req.Covered g) st) : Conserved g st :=
  (inv_of_run h).conserved

/-! ### A request from its start to its release -/

/-- A request is admitted to the empty cache, prefilled to all its tokens, cached and released. -/
def lifecycle (g : ServerConfig) (ok : Req → Prop) [DecidablePred ok] (r : Req) : Option State := do
  let (cache, vals, node) ← reset.matchPrefix g.cache
    ⟨r.tokens, r.extraKey, r.cacheSalt, false, none⟩ 0
  let cache := (cache.incLockRef g.cache node).1
  let r := { r with row := vals, cacheProtectedLen := vals.length, lastNode := node }
  let n := r.tokens.length
  let (outs, allocator) ← (clear g.pool).allocForExtend g.pool
    [⟨r.row.length, n, lastLoc r.row⟩]
  let out ← outs.head?
  let r := { r with row := r.row ++ out, kvCommittedLen := n }
  let (cache, allocator, r') ← cacheUnfinishedReq g cache allocator r n false 1 2
  if vals.length ≤ n ∧ outs = [out] ∧ n ≤ r.row.length ∧ r.cacheProtectedLen ≤ numUnits g n ∧
      ok r' ∧ r'.kvCommittedLen ≤ r'.tokens.length ∧ r'.kvCommittedLen ≤ r'.row.length then do
    let (cache, allocator) ← releaseKvCache g cache allocator r' true 3
    return ⟨cache, allocator, 0⟩
  else none

theorem lifecycle_run {ok : Req → Prop} [DecidablePred ok] {r : Req}
    (h : lifecycle g ok r = some st) : Run g ok st := by
  obtain ⟨⟨s₁, vals, node⟩, hmatch, h₁⟩ := Option.bind_eq_some_iff.mp h
  obtain ⟨⟨outs, a₁⟩, halloc, h₂⟩ := Option.bind_eq_some_iff.mp h₁
  obtain ⟨out, hout, h₃⟩ := Option.bind_eq_some_iff.mp h₂
  obtain ⟨⟨s₂, a₂, r'⟩, hcache, h₄⟩ := Option.bind_eq_some_iff.mp h₃
  simp only at h₄
  split_ifs at h₄ with hcond
  obtain ⟨hvals, houts, hrow, hfill, hok, htok', hrow'⟩ := hcond
  obtain ⟨⟨s₃, a₃⟩, hrel, h₅⟩ := Option.bind_eq_some_iff.mp h₄
  cases h₅
  subst houts
  set r₁ : Req := { r with row := vals, cacheProtectedLen := vals.length, lastNode := node }
  have hstart : Run g ok ⟨(s₁.incLockRef g.cache node).1, .clear g.pool, r₁ ::ₘ 0⟩ :=
    Run.init.step (.start r none 0 hmatch)
  have hextend : Run g ok ⟨(s₁.incLockRef g.cache node).1, a₁,
      { r₁ with row := r₁.row ++ out } ::ₘ 0⟩ :=
    hstart.step (@Step.extend g ok _ _ _ 0 _ [(r₁, r₁.tokens.length)] (by simpa using hvals) halloc)
  have hprogress := hextend.step (.progress { r₁ with row := r₁.row ++ out } [] r₁.tokens.length
    r.reasoningTokens)
  simp only [append_nil] at hprogress
  exact (hprogress.step (.cacheUnfinished _ false 1 2 le_rfl hrow hfill hcache)).step
    (.release true 3 hok htok' hrow' hrel)

/-- A pool of three pages of one token. -/
def smallServer (strip : Bool) : ServerConfig where
  cache := { pageSize := 1, pageSize_pos := Nat.one_pos, isEagle := false, disable := false
             evictionPolicy := .lru }
  numPages := 3
  needSort := false
  disableFinishedInsert := false
  stripThinkingCache := strip
  speculative := false

/-- A request that was retracted with one token of output, after reasoning. -/
def retracted : Req where
  originInputIds := [7]
  outputIds := [8]
  extraKey := none
  cacheSalt := none
  priority := none
  skipRadixCacheInsert := false
  reasoningTokens := 1
  kvCommittedLen := 0
  row := []
  cacheProtectedLen := 0
  lastNode := 0

instance (g : ServerConfig) : DecidablePred (Req.Covered g) := fun r =>
  inferInstanceAs (Decidable (r.cacheProtectedLen ≤ numUnits g (r.effectiveKvCommittedLen g)))

/-- Without `strip_thinking_cache` the same request leaves both its pages in the tree. -/
theorem run_conserved_retracted : ∃ st, Run (smallServer false) (Req.Covered (smallServer false)) st ∧
    st.cache.evictableSize = 2 ∧ Conserved (smallServer false) st := by
  obtain ⟨st, hst, h2⟩ : ∃ st ∈ lifecycle (smallServer false) (Req.Covered (smallServer false))
      retracted, st.cache.evictableSize = 2 := by
    decide +kernel
  exact ⟨st, lifecycle_run hst, h2, run_conserved (lifecycle_run hst)⟩

/-- With `strip_thinking_cache`, the release of a request that was prefilled with its output frees
page 2, which the tree owns. -/
theorem treePage_freed : ∃ st, Run (smallServer true) (fun _ => True) st ∧
    st.holders (smallServer true) 2 = 2 := by
  obtain ⟨st, hst, h2⟩ : ∃ st ∈ lifecycle (smallServer true) (fun _ => True) retracted,
      st.holders (smallServer true) 2 = 2 := by
    decide +kernel
  exact ⟨st, lifecycle_run hst, h2⟩

end SglangRuntime.KvPages
