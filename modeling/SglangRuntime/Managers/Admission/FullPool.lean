import SglangRuntime.Managers.Admission.Outcome
import SglangRuntime.Managers.FinishState
import SglangRuntime.MemCache.RadixCache.Evictable

/-!
# Managers — admission into the full pool

A prefill pass over a `RadixCache` and a paged allocator admits no more than the pool can hold: the
pages that `alloc_extend` takes for all admitted requests fit into what is free and evictable when
the pass ends, with every lock of the pass still held (`fullPool_admission_sound`).

The invariant of the pass (`FullOk`) says that the tokens of the admitted pages are within the pool
and within both offsets.  A check compares a request with what the pool has left after the lock on
its own prefix, so the lock cannot take away what was counted.
-/

namespace SglangRuntime.Admission

open Foundation Option Multiset PrefillAdder RadixCache AdderConfig Option Int
open Scheduling (AddReqResult)

variable {σ ν : Type} {c : AdderConfig} {P : TreePort σ ν}

/-- The tokens of the full pool that are free or evictable. -/
def TreePort.fullSize (P : TreePort σ ν) (s : σ) : Int := P.availableSize s + P.evictableSize s

/-- What `update_finish_state` leaves unfinished, and `filter_batch` therefore keeps, is a running
request. -/
def RunningReq.ofUnfinished {search : Finish.Text → Finish.Text → Option Bool} {r r' : Finish.Req}
    {newAcceptedLen : Nat} (originLen : Nat) (h : r.updateFinishState search newAcceptedLen = r')
    (hf : r'.finished = false) : RunningReq where
  ignoreEos := r'.samplingParams.ignoreEos
  maxNewTokens := r'.samplingParams.maxNewTokens
  outputLen := r'.outputIds.length
  originLen := originLen
  within_limit := (r.length_lt_of_unfinished search h hf).le

/-! ### The invariant -/

/-- What is charged is within the pool, and within both offsets. -/
structure FullOk (c : AdderConfig) (P : TreePort σ ν) (Ok : σ → Prop) (a : PrefillAdder σ) : Prop where
  cache : Ok a.cache
  room : c.pagedTokens a.canRunList ≤ P.fullSize a.cache
  total : (c.pagedTokens a.canRunList : ℚ) ≤ a.remTotalTokenOffset
  current : c.pagedTokens a.canRunList ≤ a.curRemTokenOffset

namespace FullOk

variable {Ok : σ → Prop} {Live : σ → ν → Prop} {a a' : PrefillAdder σ} {req : Req ν}

theorem sameBudgets (h : FullOk c P Ok a) (same : PrefillAdder.SameBudgets a a') (hok : Ok a'.cache)
    (hsize : P.fullSize a.cache ≤ P.fullSize a'.cache) : FullOk c P Ok a' where
  cache := hok
  room := by rw [same.canRunList]; exact h.room.trans hsize
  total := by rw [same.canRunList, same.remTotalTokenOffset]; exact h.total
  current := by rw [same.canRunList, same.curRemTokenOffset]; exact h.current

/-- One more request, charged for the tokens of its pages. -/
theorem charge (h : FullOk c P Ok a) {e : Admitted} {ext mn : Int} (hmn : 0 ≤ mn)
    (hext : roundUp c.pageSize e.extendLen ≤ roundUp c.pageSize ext)
    (same : PrefillAdder.SameBudgets ((a.append e).updatePrefillBudget c P ext mn) a')
    (hok : Ok a'.cache)
    (hroom : c.pagedTokens a.canRunList + roundUp c.pageSize e.extendLen ≤ P.fullSize a'.cache) :
    FullOk c P Ok a' := by
  have hlist : a'.canRunList = a.canRunList ++ [e] := same.canRunList
  refine ⟨hok, ?_, ?_, ?_⟩
  · rw [hlist, pagedTokens_append]
    exact hroom
  · rw [hlist, pagedTokens_append, same.remTotalTokenOffset,
      remTotalTokenOffset_updatePrefillBudget]
    refine c.rounding.le_round ?_
    have hint : ((c.pagedTokens a.canRunList + roundUp c.pageSize e.extendLen : Int) : ℚ) ≤
        (c.pagedTokens a.canRunList + (roundUp c.pageSize ext + mn + c.pageSize) : Int) :=
      cast_le.mpr (by linarith)
    refine hint.trans ?_
    rw [cast_add]
    exact add_le_add h.total le_rfl
  · rw [hlist, pagedTokens_append, same.curRemTokenOffset,
      curRemTokenOffset_updatePrefillBudget]
    have hcur : c.pagedTokens a.canRunList ≤ (a.append e).curRemTokenOffset := h.current
    linarith

/-- A request that passes the checks under the lock fits beside what is charged. -/
theorem fits_of_passed (h : FullOk c P Ok a) {limit : Option Int}
    (pass : PrefillAdder.Passed c P a req limit) :
    roundUp c.pageSize req.candExtendInputLen + c.pagedTokens a.canRunList ≤
      P.fullSize (P.incLockRef a.cache req.lastNode).1 := by
  have hle : (a.locked P req.lastNode).remTotalTokens c P ≤
      (P.fullSize (P.incLockRef a.cache req.lastNode).1 - c.pagedTokens a.canRunList : Int) := by
    refine c.rounding.round_le ?_
    rw [cast_sub]
    exact sub_le_sub_left h.total _
  have hlt := cast_lt.mp (pass.total.trans_le hle)
  have hup := roundUp_lt c.pageSize_pos req.candExtendInputLen
  have hnew := c.remainingNewTokens_nonneg req.toGenLengths
  linarith

/-- **Every call of `add_one_req` without a host hit keeps the invariant.** -/
theorem addOneReq (lock : LockContract P P.fullSize Ok Live) (h : FullOk c P Ok a)
    (hlive : Live a.cache req.lastNode) (hhost : req.needsHostLoadBack = false)
    {align : Option ℕ+} {ans : Answers σ ν} {res : AddReqResult}
    (hcall : a.addOneReq c P req align ans = some (res, a')) : FullOk c P Ok a' := by
  have hload : (a.locked P req.lastNode).loadBack req ans =
      ⟨(P.incLockRef a.cache req.lastNode).1, 0, req.lastNode⟩ := by
    rw [loadBack, hhost]
    rfl
  cases addOneReq_outcome hcall with
  | refused same hc => exact h.sameBudgets same (hc ▸ h.cache) (by rw [hc])
  | unlocked same hc =>
    obtain ⟨hok, hsize⟩ := lock.unlock h.cache hlive
    exact h.sameBudgets same (hc ▸ hok) (by rw [hc]; exact hsize)
  | unloaded same pass hc =>
    rw [hload] at hc
    obtain ⟨hok, hsize⟩ := lock.unlock h.cache hlive
    exact h.sameBudgets same (hc ▸ hok) (by rw [hc]; exact hsize)
  | accepted pass hext same hc =>
    rw [hload] at hext hc
    obtain ⟨hok, hsize⟩ := lock.keep h.cache hlive
    have hfit := h.fits_of_passed pass
    cases hext with
    | whole hcand _ =>
      subst hcand
      refine h.charge (c.clippedNewTokens_nonneg _) ?_ same (hc ▸ hok) ?_
      · exact (roundUp_of_dvd c.pageSize_pos (dvd_roundUp _ _)).ge
      · rw [hc, add_comm]
        exact hfit.trans hsize
    | truncated _ hlt htr =>
      refine h.charge le_rfl le_rfl same (hc ▸ hok) ?_
      -- a truncated chunk is shorter than the request
      have hle := (roundUp_truncLen_le htr).trans hlt.le
      rw [hc, add_comm]
      exact (add_le_add_left hle _).trans (hfit.trans hsize)
  | @ignoringEos e mn _ _ fits _ len hmn same hc =>
    refine h.charge hmn le_rfl same (hc ▸ h.cache) ?_
    have hcur : roundUp c.pageSize req.candExtendInputLen ≤ a.curRemTokens P :=
      cast_le.mp (fits.trans (min_le_left _ _))
    have hle : roundUp c.pageSize e.extendLen ≤ roundUp c.pageSize req.candExtendInputLen := by
      obtain ⟨heq, -⟩ | ⟨-, -, hlt⟩ := len
      · rw [heq]
      · exact roundUp_mono c.pageSize_pos hlt.le
    have hoff := h.current
    rw [curRemTokens] at hcur
    rw [hc, TreePort.fullSize]
    linarith

/-- **A chunked request whose bound is positive keeps the invariant**, when the pool is made of
whole pages. -/
theorem addChunkedReq (hswa : c.isHybridSwa = false) (h : FullOk c P Ok a)
    (hnil : a.canRunList = []) (hdvd : (c.pageSize : Int) ∣ P.fullSize a.cache)
    {rem : Int} (hrem : a.remChunkTokens = some rem) (hpos : 0 < a.chunkedRemTokens c P rem)
    {truncated : Bool} (hcall : a.addChunkedReq c P req = some (truncated, a')) :
    FullOk c P Ok a' := by
  have hbound : a.chunkedRemTokens c P rem ≤ P.fullSize a.cache := by
    have htotal : a.remTotalTokens c P ≤ (P.fullSize a.cache : ℚ) := by
      refine c.rounding.round_le ?_
      have := h.total
      rw [hnil, pagedTokens_nil, cast_zero] at this
      rw [TreePort.fullSize]
      linarith
    rw [chunkedRemTokens, hswa, if_neg Bool.false_ne_true]
    exact (min_le_right _ _).trans (truncate_le htotal)
  simp only [PrefillAdder.addChunkedReq, hrem, map_some, hswa, Bool.false_eq_true, and_false,
    if_false, if_neg (not_le.mpr hpos), some.injEq, Prod.mk.injEq] at hcall
  obtain ⟨-, rfl⟩ := hcall
  refine h.charge ?_ le_rfl ⟨rfl, rfl, rfl, rfl, rfl, rfl⟩ h.cache ?_
  · split_ifs
    · exact le_rfl
    · exact c.clippedNewTokens_nonneg _
  · rw [hnil, pagedTokens_nil, zero_add]
    exact roundUp_le c.pageSize_pos ((min_le_right _ _).trans hbound) hdvd

end FullOk

/-! ### A `RadixCache` over a paged allocator -/

structure RadixPool where
  tree : RadixCache
  /-- free pages and pages in release, of the allocator -/
  freePages : Nat

variable {k : CacheInitParams} {b : PrefillAdder RadixPool} {s : RadixPool}

/-- The tree cache has no sliding window; the adder reads those fields in hybrid mode only. -/
def radixPort (k : CacheInitParams) : TreePort RadixPool NodeId where
  Receipt := Unit
  disabled := k.disable
  incLockRef s n := ({ s with tree := (s.tree.incLockRef k n).1 }, ())
  decLockRef s n _ := { s with tree := (s.tree.decLockRef k n).1 }
  availableSize s := s.freePages * k.pageSize
  evictableSize s := s.tree.evictableSize
  swaAvailableSize _ := 0
  swaEvictableSize _ := 0
  slidingWindowSize := 0
  sizeSwa := 0

namespace RadixPool

/-- The tree is a reachable one. -/
def Ok (k : CacheInitParams) (s : RadixPool) : Prop := ∃ held, RadixCache.Inv k s.tree held

def Live (s : RadixPool) (n : NodeId) : Prop := s.tree.tree.Live n

theorem lockContract (k : CacheInitParams) :
    LockContract (radixPort k) (radixPort k).fullSize (Ok k) Live where
  unlock := by
    rintro s n ⟨held, h⟩ hn
    have h₁ := h.incLockRef hn
    have h₂ := h₁.decLockRef (mem_cons_self n held)
    rw [erase_cons_head] at h₂
    have e := h.evictableSize_eq h₂ ((h.sameShape_incLockRef hn).trans
      (h₁.sameShape_decLockRef (mem_cons_self n held)))
    exact ⟨⟨held, h₂⟩, (congrArg ((s.freePages * k.pageSize : Int) + ·) e).ge⟩
  keep := by
    rintro s n ⟨held, h⟩ hn
    have h₁ := h.incLockRef hn
    have hn₁ := (h.sameShape_incLockRef hn).live.mpr hn
    have h₂ := h₁.incLockRef hn₁
    have h₃ := h₂.decLockRef (mem_cons_self n _)
    rw [erase_cons_head] at h₃
    have e := h₁.evictableSize_eq h₃ ((h₁.sameShape_incLockRef hn₁).trans
      (h₂.sameShape_decLockRef (mem_cons_self n _)))
    exact ⟨⟨_, h₃⟩, (congrArg ((s.freePages * k.pageSize : Int) + ·) e).ge⟩

/-- `evict_from_tree_cache`: the number of slots evicted. -/
def evictFromTreeCache (k : CacheInitParams) (s : RadixPool) (numTokens : Int) (rank : NodeId → Nat) :
    Option Nat :=
  let availableSize : Int := s.freePages * k.pageSize
  if availableSize < numTokens then
    (s.tree.evict k (numTokens - availableSize).toNat rank).map fun r => r.2.1
  else some 0

/-- An eviction makes room for what was asked, or for all that is evictable. -/
theorem evictFromTreeCache_frees {s : RadixPool} (h : s.Ok k) (numTokens : Int)
    (rank : NodeId → Nat) : ∃ n, s.evictFromTreeCache k numTokens rank = some n ∧
      min numTokens ((radixPort k).fullSize s) ≤ (s.freePages * k.pageSize : Int) + n := by
  obtain ⟨held, hinv⟩ := h
  rw [evictFromTreeCache]
  by_cases hlt : (s.freePages * k.pageSize : Int) < numTokens
  · obtain ⟨s', n, freed, hres, hn⟩ :=
      hinv.evict_frees (numTokens - (s.freePages * k.pageSize : Int)).toNat rank
    refine ⟨n, by simp only [hlt, if_true, hres, map_some], ?_⟩
    rcases hn with hn | hn
    · exact (min_le_left _ _).trans (by omega)
    · refine (min_le_right _ _).trans ?_
      exact add_le_add_right hn (s.freePages * k.pageSize : Int)
  · exact ⟨0, by simp only [hlt, if_false], (min_le_left _ _).trans (by simpa using hlt)⟩

end RadixPool

/-! ### The pass -/

/-- `add_chunked_req` comes first, if it is called at all; its bound on the chunk is positive. -/
inductive Start (c : AdderConfig) (k : CacheInitParams) (a : PrefillAdder RadixPool) :
    PrefillAdder RadixPool → Prop where
  | plain : Start c k a a
  | chunked {a' : PrefillAdder RadixPool} (req : Req NodeId) {rem : Int} {truncated : Bool}
      (hrem : a.remChunkTokens = some rem) (hpos : 0 < a.chunkedRemTokens c (radixPort k) rem)
      (h : a.addChunkedReq c (radixPort k) req = some (truncated, a')) : Start c k a a'

/-- The calls of a pass.  Before each, the request is matched against the tree, which may split a
node; a `RadixCache` has no host tier. -/
inductive Pass (c : AdderConfig) (k : CacheInitParams) (a : PrefillAdder RadixPool) :
    PrefillAdder RadixPool → Prop where
  | refl : Pass c k a a
  | matchPrefix {b : PrefillAdder RadixPool} (t : Pass c k a b) (key : RadixKey) (now : Int)
      {tree : RadixCache} {vals : List Slot} {node : NodeId}
      (h : b.cache.tree.matchPrefix k key now = some (tree, vals, node)) :
      Pass c k a { b with cache := { b.cache with tree := tree } }
  | addOneReq {b b' : PrefillAdder RadixPool} (t : Pass c k a b) (req : Req NodeId)
      (live : b.cache.Live req.lastNode) (host : req.hostHitLength = 0 ∧ req.swaHostHitLength = 0)
      (align : Option ℕ+) (ans : Answers RadixPool NodeId) {res : AddReqResult}
      (h : b.addOneReq c (radixPort k) req align ans = some (res, b')) : Pass c k a b'

theorem FullOk.matchPrefix (h : FullOk c (radixPort k) (RadixPool.Ok k) b)
    {key : RadixKey} {now : Int} {tree : RadixCache} {vals : List Slot} {node : NodeId}
    (hm : b.cache.tree.matchPrefix k key now = some (tree, vals, node)) :
    FullOk c (radixPort k) (RadixPool.Ok k) { b with cache := { b.cache with tree := tree } } := by
  obtain ⟨held, hinv⟩ := h.cache
  have hinv' := hinv.step (.matchPrefix key now hm)
  refine h.sameBudgets (.withCache b _) ⟨held, hinv'⟩ ?_
  refine (congrArg ((b.cache.freePages * k.pageSize : Int) + ·) ?_).le
  -- a lookup splits a node at most
  by_cases hd : k.disable
  · simp only [RadixCache.matchPrefix, hd, Bool.true_or, if_true, some.injEq,
      Prod.mk.injEq] at hm
    exact congrArg evictableSize hm.1
  · rw [Bool.not_eq_true] at hd
    obtain ⟨s₁, vals', node', e, hr, -⟩ := matchPrefix_spec hinv.books hd key now
    rw [hm, some.injEq, Prod.mk.injEq] at e
    rw [e.1]
    exact hr.1.symm

theorem Pass.fullOk {a : PrefillAdder RadixPool} (t : Pass c k a b)
    (h : FullOk c (radixPort k) (RadixPool.Ok k) a) :
    FullOk c (radixPort k) (RadixPool.Ok k) b := by
  induction t with
  | refl => exact h
  | matchPrefix _ key now hm ih => exact ih.matchPrefix hm
  | addOneReq _ req live host align ans hcall ih =>
    refine ih.addOneReq (RadixPool.lockContract k) live ?_ hcall
    rw [Req.needsHostLoadBack, host.1, host.2]
    rfl

theorem fullOk_new (h : s.Ok k) (remInput : Int) (remChunk : Option Int) (mixed : Nat) :
    FullOk c (radixPort k) (RadixPool.Ok k) (new c s remInput remChunk mixed) where
  cache := h
  room := by
    obtain ⟨held, hinv⟩ := h
    have h0 : (0 : Int) ≤ s.freePages * k.pageSize :=
      mul_nonneg (natCast_nonneg _) (natCast_nonneg _)
    exact add_nonneg h0 hinv.evictableSize_nonneg
  total := by
    refine c.rounding.round_nonneg (add_nonneg (Nat.cast_nonneg _) (c.rounding.sum_nonneg ?_))
    intro x hx
    obtain ⟨r, -, rfl⟩ := List.mem_map.mp hx
    exact c.runningRequestTotalTokenOffset_nonneg r
  current := natCast_nonneg _

theorem Start.fullOk (hswa : c.isHybridSwa = false) (hpage : k.pageSize = c.pageSize)
    (h : s.Ok k) {remInput : Int} {remChunk : Option Int} {mixed : Nat}
    (t : Start c k (new c s remInput remChunk mixed) b) :
    FullOk c (radixPort k) (RadixPool.Ok k) b := by
  cases t with
  | plain => exact fullOk_new h remInput remChunk mixed
  | chunked req hrem hpos hcall =>
    refine (fullOk_new h remInput remChunk mixed).addChunkedReq hswa rfl ?_ hrem hpos hcall
    obtain ⟨held, hinv⟩ := h
    rw [← hpage]
    exact dvd_add (dvd_mul_left _ _) hinv.page_dvd_evictableSize

/-- The tokens `alloc_paged_token_slots_extend` evicts for: one page more than needed for each
request. -/
def AdderConfig.evictTarget (c : AdderConfig) (l : List Admitted) : Int :=
  (l.map Admitted.extendLen).sum + l.length * c.pageSize

theorem AdderConfig.pagedTokens_le_evictTarget (c : AdderConfig) (l : List Admitted) :
    c.pagedTokens l ≤ c.evictTarget l := by
  induction l with
  | nil => simp [evictTarget]
  | cons e l ih =>
    have h := (roundUp_lt c.pageSize_pos e.extendLen).le
    simp only [pagedTokens, evictTarget, List.map_cons, List.sum_cons, List.length_cons,
      Nat.cast_add, Nat.cast_one, add_mul, one_mul] at ih ⊢
    linarith

/-- **Admission into the full pool is sound.**  At the end of a pass the pages that the admitted
requests take fit into what is free and evictable, and after the eviction that precedes the
allocation they fit into what is free. -/
theorem fullPool_admission_sound (hswa : c.isHybridSwa = false) (hpage : k.pageSize = c.pageSize)
    {tree : RadixCache} {held : Multiset NodeId} {es : List (RadixCache.Event k)}
    (run : RadixCache.Run k tree held es) (freePages : Nat) (remInput : Int) (remChunk : Option Int)
    {a b : PrefillAdder RadixPool}
    (start : Start c k (new c ⟨tree, freePages⟩ remInput remChunk 0) a) (pass : Pass c k a b) :
    c.batchPages b.canRunList * c.pageSize ≤
        (radixPort k).availableSize b.cache + (radixPort k).evictableSize b.cache ∧
      ∀ rank, ∃ n, b.cache.evictFromTreeCache k (c.evictTarget b.canRunList) rank = some n ∧
        c.batchPages b.canRunList * c.pageSize ≤ (radixPort k).availableSize b.cache + n := by
  have h := pass.fullOk (start.fullOk hswa hpage ⟨held, run.inv⟩)
  have hpages := c.batchPages_le b.canRunList
  refine ⟨hpages.trans h.room, fun rank => ?_⟩
  obtain ⟨n, hn, hmin⟩ := RadixPool.evictFromTreeCache_frees h.cache (c.evictTarget b.canRunList) rank
  refine ⟨n, hn, hpages.trans ((le_min ?_ h.room).trans hmin)⟩
  exact c.pagedTokens_le_evictTarget b.canRunList

/-! A pass over one cached token: a chunked request is continued, and a request that extends the
cached token is admitted with the rest of the chunk budget. -/

/-- One running request, half of whose remaining tokens are counted. -/
def tokenAdder : AdderConfig where
  pageSize := 1
  pageSize_pos := Nat.one_pos
  isHybridSwa := false
  clipMaxNewTokens := 4096
  newTokenRatio := 1 / 2
  ratio_nonneg := by norm_num
  runningBatch := [⟨⟨false, 8, 2, 3⟩, by decide⟩]
  prefillMaxRequests := none
  dsaPrefillCpInSeqSplit := false
  rounding := .exact

def oneTokenPool : RadixPool where
  tree := ((reset.insert tokenParams oneTokenInsert 0).map
    Prod.fst).getD reset
  freePages := 20

theorem run_oneTokenPool : RadixCache.Run tokenParams oneTokenPool.tree 0
    [.insert oneTokenInsert 0] := by
  have h : (reset.insert tokenParams oneTokenInsert 0).map
      Prod.snd = some (0, 1) := by decide
  obtain ⟨r, hr, e⟩ := map_eq_some_iff.mp h
  have hins : reset.insert tokenParams oneTokenInsert 0 =
      some (oneTokenPool.tree, 0, 1) := by
    rw [oneTokenPool, hr, map_some, getD_some, ← e]
  exact .step .reset (.insert oneTokenInsert 0 hins)

def plainAnswers : Answers RadixPool NodeId := ⟨true, fun _ => false, fun s => ⟨s, 0, 0⟩⟩

/-- Three tokens left of a chunked request. -/
def chunkedThree : Req NodeId := ⟨⟨false, 1, 0, 5⟩, 5, 2, by decide, 0, 0, 0⟩

/-- Five tokens after the cached one. -/
def afterCached : Req NodeId := ⟨⟨false, 2, 0, 6⟩, 6, 1, by decide, 0, 0, 1⟩

def tokenStart : PrefillAdder RadixPool := .new tokenAdder oneTokenPool 100 (some 6) 0

def tokenChunked : Option (Bool × PrefillAdder RadixPool) :=
  tokenStart.addChunkedReq tokenAdder (radixPort tokenParams) chunkedThree

def tokenAdded : Option (AddReqResult × PrefillAdder RadixPool) :=
  tokenChunked.bind fun r =>
    r.2.addOneReq tokenAdder (radixPort tokenParams) afterCached none plainAnswers

theorem fullPool_admission_sound_tokens : ∃ a b,
    Start tokenAdder tokenParams tokenStart a ∧ Pass tokenAdder tokenParams a b ∧
      b.canRunList.map Admitted.extendLen = [3, 3] ∧
      tokenAdder.batchPages b.canRunList * tokenAdder.pageSize ≤
        (radixPort tokenParams).availableSize b.cache +
          (radixPort tokenParams).evictableSize b.cache := by
  have hc : tokenChunked.isSome := by decide +kernel
  have hb : tokenAdded.isSome := by decide +kernel
  obtain ⟨⟨t, a⟩, ha⟩ := isSome_iff_exists.mp hc
  obtain ⟨⟨res, b⟩, hadd⟩ := isSome_iff_exists.mp hb
  have hadd' : a.addOneReq tokenAdder (radixPort tokenParams) afterCached none
      plainAnswers = some (res, b) := by
    rw [tokenAdded, ha, bind_some] at hadd
    exact hadd
  have hrem : tokenStart.remChunkTokens = some 6 := rfl
  have start : Start tokenAdder tokenParams tokenStart a :=
    .chunked chunkedThree hrem (by decide +kernel) ha
  have hlive : a.cache.Live afterCached.lastNode := by
    have h : tokenChunked.map (fun r => decide (r.2.cache.tree.tree.Live 1)) = some true := by
      decide +kernel
    rw [ha, map_some, some.injEq, decide_eq_true_eq] at h
    exact h
  have pass : Pass tokenAdder tokenParams a b :=
    .addOneReq .refl afterCached hlive ⟨rfl, rfl⟩ none plainAnswers hadd'
  have hlens : tokenAdded.map (fun r => r.2.canRunList.map Admitted.extendLen) = some [3, 3] := by
    decide +kernel
  rw [hadd, map_some, some.injEq] at hlens
  exact ⟨a, b, start, pass, hlens,
    (fullPool_admission_sound rfl rfl run_oneTokenPool 20 100 (some 6) start pass).1⟩

end SglangRuntime.Admission
