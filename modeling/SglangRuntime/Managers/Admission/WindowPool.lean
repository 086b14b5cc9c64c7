import Mathlib
import SglangRuntime.Managers.Admission.Outcome

/-!
# Managers — admission into the sliding-window pool

The sliding-window gate of `add_one_req` charges a request for what is left to prefill once its host
hit has been loaded back.  In a pass whose load-backs load every host-hit token, the pages of all
admitted requests fit into what is free and evictable when the pass ends
(`windowPool_admission_sound`).

`init_load_back` may also drop the hit ("invalid holds drop and the request recomputes"), and then
the whole prompt is prefilled under a charge for its tail; `windowPool_overcommits` is such a pass.
-/

namespace SglangRuntime.Admission

open Foundation PrefillAdder AdderConfig Option
open Scheduling (AddReqResult)

variable {σ ν : Type} {c : AdderConfig} {P : TreePort σ ν}

/-- The tokens of the sliding-window pool that are free or evictable. -/
def TreePort.swaSize (P : TreePort σ ν) (s : σ) : Int := P.swaAvailableSize s + P.swaEvictableSize s

/-- What the gate adds for the window that a load-back allocates. -/
def AdderConfig.swaHostCharge (c : AdderConfig) (req : Req ν) : Int :=
  if 0 < req.swaHostHitLength then roundUp c.pageSize req.swaHostHitLength else 0

theorem AdderConfig.swaHostCharge_nonneg (c : AdderConfig) (req : Req ν) : 0 ≤ c.swaHostCharge req := by
  rw [swaHostCharge]
  split_ifs
  · exact (Int.natCast_nonneg _).trans (le_roundUp c.pageSize_pos _)
  · exact le_rfl

/-- What the adder relies on when a load-back runs under the lock on `n`: it takes at most `charge`
tokens off the pool, whether the request is then refused or keeps a lock of its own. -/
structure LoadBackContract (P : TreePort σ ν) (size : σ → Int) (Ok : σ → Prop) (s : σ) (n : ν)
    (lb : LoadBack σ ν) (charge : Int) : Prop where
  unlock : Ok (P.decLockRef lb.cache n (P.incLockRef s n).2) ∧
    size (P.incLockRef s n).1 - charge ≤ size (P.decLockRef lb.cache n (P.incLockRef s n).2)
  keep : Ok (P.decLockRef (P.incLockRef lb.cache lb.lastNode).1 n (P.incLockRef s n).2) ∧
    size (P.incLockRef s n).1 - charge ≤
      size (P.decLockRef (P.incLockRef lb.cache lb.lastNode).1 n (P.incLockRef s n).2)

namespace PrefillAdder

variable {a a' : PrefillAdder σ} {req : Req ν} {maxNewTokens : Int} {limit : Option Int}

section

variable (a : PrefillAdder σ)

/-- The tokens of the next chunk, as the budget counts them. -/
def chunkAlloc (extendInputLen : Int) : Int :=
  match a.remChunkTokens with
  | none => extendInputLen
  | some rem => min extendInputLen rem

/-- The budget covers the chunk, a page and the load-back. -/
theorem chunkAlloc_le_swaBudgetForReq (extendInputLen : Int)
    (hnew : 0 ≤ maxNewTokens) (swaHostHitLength : Nat) :
    a.chunkAlloc extendInputLen + c.pageSize +
        (if 0 < swaHostHitLength then roundUp c.pageSize swaHostHitLength else 0) ≤
      a.swaBudgetForReq c P extendInputLen maxNewTokens swaHostHitLength := by
  have halloc : a.chunkAlloc extendInputLen ≤ extendInputLen := by
    rw [chunkAlloc]
    split
    · exact le_rfl
    · exact min_le_left _ _
  have hmain : a.chunkAlloc extendInputLen ≤
      max (a.chunkAlloc extendInputLen - P.slidingWindowSize) 0 +
        min (extendInputLen + maxNewTokens) P.slidingWindowSize := by
    omega
  simp only [swaBudgetForReq, swaReservedTokens, ceilPagedTokens_eq]
  change _ ≤ max (a.chunkAlloc extendInputLen - P.slidingWindowSize) 0 + _
  linarith

/-- With something to prefill or nothing, the budget covers a page and the load-back. -/
theorem page_le_swaBudgetForReq {extendInputLen : Int}
    (hext : 0 ≤ extendInputLen) (hnew : 0 ≤ maxNewTokens) (swaHostHitLength : Nat) :
    (c.pageSize : Int) +
        (if 0 < swaHostHitLength then roundUp c.pageSize swaHostHitLength else 0) ≤
      a.swaBudgetForReq c P extendInputLen maxNewTokens swaHostHitLength := by
  have hmin : (0 : Int) ≤ min (extendInputLen + maxNewTokens) P.slidingWindowSize :=
    le_min (add_nonneg hext hnew) (Int.natCast_nonneg _)
  have hmax := le_max_right (a.chunkAlloc extendInputLen - P.slidingWindowSize) 0
  simp only [swaBudgetForReq, swaReservedTokens, ceilPagedTokens_eq]
  change _ ≤ max (a.chunkAlloc extendInputLen - P.slidingWindowSize) 0 + _
  linarith

end

theorem le_chunkAlloc {x ext : Int} (hx : x ≤ ext)
    (hrem : ∀ rem, a.remChunkTokens = some rem → x ≤ rem) : x ≤ a.chunkAlloc ext := by
  rw [chunkAlloc]
  split
  · exact hx
  · next rem h => exact le_min hx (hrem rem h)

/-- The charge of an admitted request covers the tokens of its pages. -/
theorem roundUp_le_swaBudgetForReq {ext mn : Int} (hmn : 0 ≤ mn)
    (hrem : ∀ rem, a.remChunkTokens = some rem → ext ≤ rem) :
    roundUp c.pageSize ext ≤ a.swaBudgetForReq c P (roundUp c.pageSize ext) mn 0 := by
  have hle : ext ≤ a.chunkAlloc (roundUp c.pageSize ext) :=
    le_chunkAlloc (le_roundUp c.pageSize_pos ext) hrem
  have h := a.chunkAlloc_le_swaBudgetForReq (c := c) (P := P) (roundUp c.pageSize ext) hmn 0
  have hlt := roundUp_lt c.pageSize_pos ext
  rw [if_neg (lt_irrefl 0)] at h
  linarith

/-- What the sliding-window gate lets through: the chunk limit is within the chunk budget, and what
may be prefilled fits, with the load-back. -/
theorem fits_of_swaGate (hyb : c.isHybridSwa) {real : Int} (hreal : 0 ≤ real) {limit₀ : Option Int}
    (h₀ : ∀ l, limit₀ = some l → ∃ rem, a.remChunkTokens = some rem ∧ l ≤ rem)
    (h₀' : limit₀ = none → a.remChunkTokens = none)
    (h : a.swaGate c P req real limit₀ = some limit) :
    (∀ l, limit = some l → ∃ rem, a.remChunkTokens = some rem ∧ l ≤ rem) ∧
    (limit = none → a.remChunkTokens = none) ∧
    ∀ x : Int, x ≤ real → (0 < x → ∀ l, limit = some l → x ≤ l) →
      x + c.swaHostCharge req < a.remSwaTokens P := by
  have hp : (0 : Int) < c.pageSize := Int.natCast_pos.mpr c.pageSize_pos
  simp only [swaGate, hyb, true_and] at h
  by_cases hneed : a.swaBudgetForReq c P real (c.remainingNewTokens req.toGenLengths)
      req.swaHostHitLength ≥ a.remSwaTokens P
  · rw [if_pos hneed] at h
    split at h
    swap
    · cases h
    obtain ⟨rem, hrem, hlim⟩ := bind_eq_some_iff.mp h
    split_ifs at hlim with hcap
    rw [some.injEq] at hlim
    subst hlim
    refine ⟨fun l hl => ⟨rem, hrem, ?_⟩, fun hl => (nomatch hl), fun x _ hx => ?_⟩
    · rw [← some.inj hl]; exact min_le_left _ _
    have hcap' := not_le.mp hcap
    have hxcap : x ≤ a.swaChunkCap c P (c.remainingNewTokens req.toGenLengths)
        req.swaHostHitLength := by
      by_cases hx0 : 0 < x
      · exact (hx hx0 _ rfl).trans (min_le_right _ _)
      · linarith
    rw [swaChunkCap] at hxcap hcap'
    split_ifs at hxcap hcap' with h0
    · exact absurd hcap' (lt_irrefl 0)
    have hcapLe := Int.ediv_mul_le (a.remSwaTokens P - swaReservedTokens c P 0
      (c.remainingNewTokens req.toGenLengths) req.swaHostHitLength) hp.ne'
    have hres : c.pageSize + c.swaHostCharge req ≤
        swaReservedTokens c P 0 (c.remainingNewTokens req.toGenLengths) req.swaHostHitLength := by
      have hmin : (0 : Int) ≤ min (0 + c.remainingNewTokens req.toGenLengths)
          P.slidingWindowSize :=
        le_min (by rw [zero_add]; exact c.remainingNewTokens_nonneg _) (Int.natCast_nonneg _)
      rw [swaReservedTokens, swaHostCharge, ceilPagedTokens_eq]
      linarith
    linarith
  · rw [if_neg hneed, some.injEq] at h
    subst h
    refine ⟨h₀, h₀', fun x hxr hx => ?_⟩
    rw [swaHostCharge]
    by_cases hx0 : 0 < x
    · have hle : x ≤ a.chunkAlloc real := by
        refine le_chunkAlloc hxr fun rem hrem => ?_
        rcases limit₀ with - | l
        · rw [h₀' rfl] at hrem; cases hrem
        · obtain ⟨rem', hrem', hl⟩ := h₀ l rfl
          obtain rfl : rem = rem' := some.inj (hrem.symm.trans hrem')
          exact (hx hx0 l rfl).trans hl
      have hb := a.chunkAlloc_le_swaBudgetForReq (c := c) (P := P) real
        (c.remainingNewTokens_nonneg req.toGenLengths) req.swaHostHitLength
      linarith
    · have hb := a.page_le_swaBudgetForReq (c := c) (P := P) hreal
        (c.remainingNewTokens_nonneg req.toGenLengths) req.swaHostHitLength
      linarith

/-- The same for both gates of a request. -/
theorem Passed.fits (hyb : c.isHybridSwa) (pass : Passed c P a req limit)
    (hreal : 0 ≤ req.candExtendInputLen - req.hostHitLength) :
    (∀ l, limit = some l → ∃ rem, a.remChunkTokens = some rem ∧ l ≤ rem) ∧
    (limit = none → a.remChunkTokens = none) ∧
    ∀ x : Int, x ≤ roundUp c.pageSize (req.candExtendInputLen - req.hostHitLength) →
      (0 < x → ∀ l, limit = some l → x ≤ l) →
      x + c.swaHostCharge req < (a.locked P req.lastNode).remSwaTokens P := by
  obtain ⟨limit₀, hg₀, hg⟩ := pass.gate
  have hreal' := hreal.trans (le_roundUp c.pageSize_pos _)
  obtain ⟨h₁, h₂, -⟩ := fits_of_swaGate hyb hreal' (fun l hl => ⟨l, hl, le_rfl⟩) (fun hl => hl) hg₀
  exact fits_of_swaGate (a := a.locked P req.lastNode) hyb hreal' h₁ h₂ hg

end PrefillAdder

/-! ### The invariant -/

/-- What is charged is within the sliding-window pool, and within its offset. -/
structure WindowOk (c : AdderConfig) (P : TreePort σ ν) (Ok : σ → Prop) (a : PrefillAdder σ) :
    Prop where
  cache : Ok a.cache
  room : c.pagedTokens a.canRunList ≤ P.swaSize a.cache
  offset : c.pagedTokens a.canRunList ≤ a.remSwaTokenOffset

/-- The load-back of a request, under the lock on its last node, takes no more than it is charged
for, and the prefix it leaves is one of the request. -/
def LoadBackOk (c : AdderConfig) (P : TreePort σ ν) (Ok : σ → Prop) (s : σ) (req : Req ν)
    (ans : Answers σ ν) : Prop :=
  req.needsHostLoadBack →
    LoadBackContract P P.swaSize Ok s req.lastNode
      (ans.initLoadBack (P.incLockRef s req.lastNode).1) (c.swaHostCharge req) ∧
    req.prefixLen + (ans.initLoadBack (P.incLockRef s req.lastNode).1).newIndices ≤ req.fillLen

/-- The load-back loads every host-hit token. -/
def LoadsHostHit (P : TreePort σ ν) (s : σ) (req : Req ν) (ans : Answers σ ν) : Prop :=
  req.needsHostLoadBack →
    (ans.initLoadBack (P.incLockRef s req.lastNode).1).newIndices = req.hostHitLength

namespace WindowOk

variable {Ok : σ → Prop} {Live : σ → ν → Prop} {a a' : PrefillAdder σ} {req : Req ν}
  {ans : Answers σ ν}

theorem sameBudgets (h : WindowOk c P Ok a) (same : PrefillAdder.SameBudgets a a')
    (hok : Ok a'.cache) (hsize : c.pagedTokens a.canRunList ≤ P.swaSize a'.cache) :
    WindowOk c P Ok a' where
  cache := hok
  room := by rw [same.canRunList]; exact hsize
  offset := by rw [same.canRunList, same.remSwaTokenOffset]; exact h.offset

/-- One more request, charged for the tokens of its pages. -/
theorem charge (hyb : c.isHybridSwa) (h : WindowOk c P Ok a) {e : Admitted} {ext mn : Int}
    (hmn : 0 ≤ mn) (hext : roundUp c.pageSize e.extendLen ≤ roundUp c.pageSize ext)
    (hrem : ∀ rem, a.remChunkTokens = some rem → ext ≤ rem)
    (same : PrefillAdder.SameBudgets ((a.append e).updatePrefillBudget c P ext mn) a')
    (hok : Ok a'.cache)
    (hroom : c.pagedTokens a.canRunList + roundUp c.pageSize e.extendLen ≤ P.swaSize a'.cache) :
    WindowOk c P Ok a' := by
  have hlist : a'.canRunList = a.canRunList ++ [e] := same.canRunList
  refine ⟨hok, ?_, ?_⟩
  · rw [hlist, pagedTokens_append]
    exact hroom
  · rw [hlist, pagedTokens_append, same.remSwaTokenOffset,
      remSwaTokenOffset_updatePrefillBudget, if_pos hyb]
    exact add_le_add h.offset (hext.trans
      (roundUp_le_swaBudgetForReq (a := a.append e) hmn hrem))

/-- Without a host hit the load-back is none, and its contract is that of the locks. -/
theorem loadBackContract (lock : LockContract P P.swaSize Ok Live) (hok : Ok a.cache)
    (hlive : Live a.cache req.lastNode) (hload : LoadBackOk c P Ok a.cache req ans) :
    Ok (P.decLockRef ((a.locked P req.lastNode).loadBack req ans).cache req.lastNode
        (P.incLockRef a.cache req.lastNode).2) ∧
      (P.swaSize (P.incLockRef a.cache req.lastNode).1 - c.swaHostCharge req ≤
          P.swaSize (P.decLockRef ((a.locked P req.lastNode).loadBack req ans).cache req.lastNode
            (P.incLockRef a.cache req.lastNode).2) ∨
        P.swaSize a.cache ≤
          P.swaSize (P.decLockRef ((a.locked P req.lastNode).loadBack req ans).cache req.lastNode
            (P.incLockRef a.cache req.lastNode).2)) ∧
      Ok (P.decLockRef (P.incLockRef ((a.locked P req.lastNode).loadBack req ans).cache
        ((a.locked P req.lastNode).loadBack req ans).lastNode).1 req.lastNode
        (P.incLockRef a.cache req.lastNode).2) ∧
      P.swaSize (P.incLockRef a.cache req.lastNode).1 - c.swaHostCharge req ≤
        P.swaSize (P.decLockRef (P.incLockRef ((a.locked P req.lastNode).loadBack req ans).cache
          ((a.locked P req.lastNode).loadBack req ans).lastNode).1 req.lastNode
          (P.incLockRef a.cache req.lastNode).2) := by
  rw [loadBack]
  by_cases hn : req.needsHostLoadBack
  · obtain ⟨hc, -⟩ := hload hn
    rw [if_pos hn]
    exact ⟨hc.unlock.1, .inl hc.unlock.2, hc.keep.1, hc.keep.2⟩
  · rw [if_neg hn]
    obtain ⟨hok₁, hsize₁⟩ := lock.unlock hok hlive
    obtain ⟨hok₂, hsize₂⟩ := lock.keep hok hlive
    exact ⟨hok₁, .inr hsize₁, hok₂, (sub_le_self _ (c.swaHostCharge_nonneg req)).trans hsize₂⟩

/-- **A call of `add_one_req` whose load-back loads the whole host hit keeps the invariant.** -/
theorem addOneReq (hyb : c.isHybridSwa) (lock : LockContract P P.swaSize Ok Live)
    (h : WindowOk c P Ok a) (hlive : Live a.cache req.lastNode)
    (hload : LoadBackOk c P Ok a.cache req ans) (hall : LoadsHostHit P a.cache req ans)
    {align : Option ℕ+} {res : AddReqResult}
    (hcall : a.addOneReq c P req align ans = some (res, a')) : WindowOk c P Ok a' := by
  obtain ⟨hok₁, hsize₁, hok₂, hsize₂⟩ := loadBackContract lock h.cache hlive hload
  obtain ⟨hnew, hprefix⟩ : ((a.locked P req.lastNode).loadBack req ans).newIndices =
      req.hostHitLength ∧ req.prefixLen + req.hostHitLength ≤ req.fillLen := by
    rw [loadBack]
    split_ifs with hn
    · exact ⟨hall hn, hall hn ▸ (hload hn).2⟩
    · simp only [Req.needsHostLoadBack, Bool.or_eq_true, decide_eq_true_eq, not_or, not_lt,
        nonpos_iff_eq_zero] at hn
      rw [hn.1]
      exact ⟨rfl, req.prefix_le⟩
  have hreal : 0 ≤ req.candExtendInputLen - req.hostHitLength := by
    rw [Req.candExtendInputLen]
    omega
  -- what passes the gates fits beside what is charged, and leaves the load-back its part
  have hfit : ∀ {limit x}, PrefillAdder.Passed c P a req limit →
      x ≤ roundUp c.pageSize (req.candExtendInputLen - req.hostHitLength) →
      (0 < x → ∀ l, limit = some l → x ≤ l) →
      c.pagedTokens a.canRunList + x ≤
        P.swaSize (P.incLockRef a.cache req.lastNode).1 - c.swaHostCharge req := by
    intro limit x pass hx hl
    have hlt := (pass.fits hyb hreal).2.2 x hx hl
    have hoff := h.offset
    rw [remSwaTokens, locked] at hlt
    rw [TreePort.swaSize]
    linarith
  cases addOneReq_outcome hcall with
  | refused same hc => exact h.sameBudgets same (hc ▸ h.cache) (by rw [hc]; exact h.room)
  | unlocked same hc =>
    obtain ⟨hok, hsize⟩ := lock.unlock h.cache hlive
    exact h.sameBudgets same (hc ▸ hok) (by rw [hc]; exact h.room.trans hsize)
  | unloaded same pass hc =>
    refine h.sameBudgets same (hc ▸ hok₁) ?_
    rw [hc]
    rcases hsize₁ with hsize₁ | hsize₁
    · have h0 := hfit pass (hreal.trans (le_roundUp c.pageSize_pos _)) fun hlt =>
        absurd hlt (lt_irrefl 0)
      rw [add_zero] at h0
      exact h0.trans hsize₁
    · exact h.room.trans hsize₁
  | @accepted limit e ext mn pass hext same hc =>
    obtain ⟨hlim, hlim', -⟩ := pass.fits hyb hreal
    rw [hnew] at hext
    cases hext with
    | whole hcand hl =>
      have hcand' : _ = req.candExtendInputLen - req.hostHitLength := hcand.trans (by
        rw [Req.candExtendInputLen]; push_cast; ring)
      subst hcand'
      refine h.charge hyb (c.clippedNewTokens_nonneg _)
        (roundUp_of_dvd c.pageSize_pos (dvd_roundUp _ _)).ge (fun rem hrem => ?_) same
        (hc ▸ hok₂) ?_
      · rcases hlimit : limit with - | l
        · rw [hlim' hlimit] at hrem; cases hrem
        · obtain ⟨rem', hrem', hle⟩ := hlim l hlimit
          obtain rfl : rem = rem' := some.inj (hrem.symm.trans hrem')
          exact (hl l hlimit).trans hle
      · rw [hc]
        exact (hfit pass le_rfl fun _ => hl).trans hsize₂
    | truncated hl hlt htr =>
      have hle := roundUp_truncLen_le htr
      refine h.charge hyb le_rfl le_rfl (fun rem hrem => ?_) same (hc ▸ hok₂) ?_
      · obtain ⟨rem', hrem', hle'⟩ := hlim _ hl
        obtain rfl : rem = rem' := some.inj (hrem.symm.trans hrem')
        exact ((le_roundUp c.pageSize_pos _).trans hle).trans hle'
      rw [hc]
      refine (hfit pass ?_ fun _ l' hl' => ?_).trans hsize₂
      · refine hle.trans (hlt.le.trans_eq (congrArg _ ?_))
        rw [Req.candExtendInputLen]
        push_cast
        ring
      · rw [hl, some.injEq] at hl'
        exact hl' ▸ hle
  | @ignoringEos e mn _ _ _ swaFits len hmn same hc =>
    have hrem : ∀ rem, a.remChunkTokens = some rem → e.extendLen ≤ rem := by
      intro rem hrem
      obtain ⟨heq, hwhole⟩ | ⟨-, heq, -⟩ := len
      · exact heq ▸ hwhole rem hrem
      · exact (some.inj (heq.symm.trans hrem)).le
    have hle : e.extendLen ≤ a.chunkAlloc req.candExtendInputLen := by
      refine le_chunkAlloc ?_ hrem
      obtain ⟨heq, -⟩ | ⟨-, -, hlt⟩ := len
      · exact heq.le
      · exact hlt.le
    have hb := (a.chunkAlloc_le_swaBudgetForReq (c := c) (P := P) req.candExtendInputLen
      (c.remainingNewTokens_nonneg req.toGenLengths) 0).trans (swaFits hyb)
    have hup := roundUp_lt c.pageSize_pos e.extendLen
    have hoff := h.offset
    refine h.charge hyb hmn le_rfl hrem same (hc ▸ h.cache) ?_
    rw [if_neg (lt_irrefl 0), remSwaTokens] at hb
    rw [hc, TreePort.swaSize]
    linarith

end WindowOk

/-! ### The pass -/

/-- The calls of a pass, each of which meets `cond`.  Between two calls a request is matched against
the tree, which does not shrink the pool. -/
inductive WindowPass (c : AdderConfig) (P : TreePort σ ν) (Ok : σ → Prop) (Live : σ → ν → Prop)
    (cond : σ → Req ν → Answers σ ν → Prop) (a : PrefillAdder σ) : PrefillAdder σ → Prop where
  | refl : WindowPass c P Ok Live cond a a
  | matchPrefix {b : PrefillAdder σ} (t : WindowPass c P Ok Live cond a b) (s : σ) (ok : Ok s)
      (size : P.swaSize b.cache ≤ P.swaSize s) : WindowPass c P Ok Live cond a { b with cache := s }
  | addOneReq {b b' : PrefillAdder σ} (t : WindowPass c P Ok Live cond a b) (req : Req ν)
      (live : Live b.cache req.lastNode) (align : Option ℕ+) (ans : Answers σ ν)
      (load : LoadBackOk c P Ok b.cache req ans) (hcond : cond b.cache req ans) {res : AddReqResult}
      (h : b.addOneReq c P req align ans = some (res, b')) : WindowPass c P Ok Live cond a b'

/-- **Admission into the sliding-window pool is sound in every pass whose load-backs load the whole
host hit.** -/
theorem windowPool_admission_sound {Ok : σ → Prop} {Live : σ → ν → Prop}
    (hyb : c.isHybridSwa = true) (lock : LockContract P P.swaSize Ok Live) {s : σ} (hs : Ok s)
    (hsize : 0 ≤ P.swaSize s) (remInput : Int) (remChunk : Option Int) (mixed : Nat)
    {b : PrefillAdder σ} (pass : WindowPass c P Ok Live (LoadsHostHit P)
      (new c s remInput remChunk mixed) b) :
    c.batchPages b.canRunList * c.pageSize ≤
      P.swaAvailableSize b.cache + P.swaEvictableSize b.cache := by
  have h : WindowOk c P Ok b := by
    induction pass with
    | refl => exact ⟨hs, hsize, le_rfl⟩
    | matchPrefix _ s' ok size ih =>
      exact ih.sameBudgets (.withCache _ s') ok (ih.room.trans size)
    | addOneReq _ req live align ans load hall hcall ih =>
      exact ih.addOneReq hyb lock live load hall hcall
  exact (c.batchPages_le b.canRunList).trans h.room

/-! A tree with nothing on device, and a request whose staged prefetch covers all but four tokens of
its prompt.  The prefix it was staged for has been evicted since, so the load-back drops it; the
gate has charged four tokens and their window, and all forty are prefilled into a pool of twenty. -/

/-- The free tokens of the two pools, under an empty tree: a lock on the root protects nothing. -/
def emptyTreePort : TreePort (Int × Int) Unit where
  Receipt := Unit
  disabled := false
  incLockRef s _ := (s, ())
  decLockRef s _ _ := s
  availableSize s := s.1
  evictableSize _ := 0
  swaAvailableSize s := s.2
  swaEvictableSize _ := 0
  slidingWindowSize := 4
  sizeSwa := 20

theorem emptyTreePort_lockContract :
    LockContract emptyTreePort emptyTreePort.swaSize (fun _ => True) (fun _ _ => True) :=
  ⟨fun _ _ => ⟨trivial, le_rfl⟩, fun _ _ => ⟨trivial, le_rfl⟩⟩

def windowAdder : AdderConfig where
  pageSize := 1
  pageSize_pos := Nat.one_pos
  isHybridSwa := true
  clipMaxNewTokens := 4096
  newTokenRatio := 1
  ratio_nonneg := ratio_one_nonneg
  runningBatch := []
  prefillMaxRequests := none
  dsaPrefillCpInSeqSplit := false
  rounding := .exact

/-- Forty tokens, of which thirty-six were staged, with a window of four. -/
def stagedReq : Req Unit := .unmatched ⟨false, 0, 0, 40⟩ 40 36 4 ()

/-- The load-back drops the staged prefetch. -/
def dropped : Answers (Int × Int) Unit := ⟨true, fun _ => false, fun s => ⟨s, 0, ()⟩⟩

/-- The load-back takes the window and loads the hit. -/
def spliced : Answers (Int × Int) Unit := ⟨true, fun _ => false, fun s => ⟨(s.1 - 36, s.2 - 4), 36, ()⟩⟩

def windowStart : PrefillAdder (Int × Int) := .new windowAdder (100, 20) 1000 (some 64) 0

def windowAdded (ans : Answers (Int × Int) Unit) : Option (AddReqResult × PrefillAdder (Int × Int)) :=
  windowStart.addOneReq windowAdder emptyTreePort stagedReq none ans

theorem windowPool_overcommits : ∃ b,
    WindowPass windowAdder emptyTreePort (fun _ => True) (fun _ _ => True) (fun _ _ _ => True)
        windowStart b ∧
      ¬ windowAdder.batchPages b.canRunList * windowAdder.pageSize ≤
        emptyTreePort.swaAvailableSize b.cache + emptyTreePort.swaEvictableSize b.cache := by
  have hsome : (windowAdded dropped).isSome := by decide +kernel
  obtain ⟨⟨res, b⟩, hb⟩ := isSome_iff_exists.mp hsome
  have hover : (windowAdded dropped).map (fun r => decide
      (windowAdder.batchPages r.2.canRunList * windowAdder.pageSize ≤
        emptyTreePort.swaAvailableSize r.2.cache + emptyTreePort.swaEvictableSize r.2.cache)) =
      some false := by decide +kernel
  rw [hb, map_some, some.injEq, decide_eq_false_iff_not] at hover
  refine ⟨b, .addOneReq .refl stagedReq trivial none dropped (fun _ => ⟨⟨⟨trivial, ?_⟩, trivial, ?_⟩, ?_⟩)
    trivial hb, hover⟩
  · decide +kernel
  · decide +kernel
  · decide

theorem windowPool_admission_sound_spliced : ∃ b,
    WindowPass windowAdder emptyTreePort (fun _ => True) (fun _ _ => True) (LoadsHostHit emptyTreePort)
        windowStart b ∧
      b.canRunList.map Admitted.extendLen = [4] ∧
      windowAdder.batchPages b.canRunList * windowAdder.pageSize ≤
        emptyTreePort.swaAvailableSize b.cache + emptyTreePort.swaEvictableSize b.cache := by
  have hsome : (windowAdded spliced).isSome := by decide +kernel
  obtain ⟨⟨res, b⟩, hb⟩ := isSome_iff_exists.mp hsome
  have hlens : (windowAdded spliced).map (fun r => r.2.canRunList.map Admitted.extendLen) =
      some [4] := by decide +kernel
  rw [hb, map_some, some.injEq] at hlens
  have pass : WindowPass windowAdder emptyTreePort (fun _ => True) (fun _ _ => True)
      (LoadsHostHit emptyTreePort) windowStart b := by
    refine .addOneReq .refl stagedReq trivial none spliced
      (fun _ => ⟨⟨⟨trivial, ?_⟩, trivial, ?_⟩, ?_⟩) (fun _ => rfl) hb
    · decide +kernel
    · decide +kernel
    · decide
  exact ⟨b, pass, hlens, windowPool_admission_sound rfl emptyTreePort_lockContract trivial
    (by decide) 1000 (some 64) 0 pass⟩

end SglangRuntime.Admission
