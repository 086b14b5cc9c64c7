import SglangRuntime.Managers.Admission.Model

/-!
# Managers — what a call of the adder can do

`addOneReq_outcome` lists the ways a call of `add_one_req` ends, with what its checks have found on
each: it leaves the budgets alone, having locked and unlocked the last node or not, or it appends
one request and charges for it.  Every invariant of a pass is read off this list.
-/

namespace SglangRuntime.Admission

open Foundation Option Int
open Scheduling (AddReqResult)

variable {σ ν : Type} {c : AdderConfig} {P : TreePort σ ν}

namespace AdderConfig

@[simp] theorem ceilPagedTokens_eq (c : AdderConfig) (t : Int) :
    c.ceilPagedTokens t = roundUp c.pageSize t := rfl

/-- The tokens of the pages that the batch is charged for. -/
def pagedTokens (c : AdderConfig) (l : List Admitted) : Int :=
  (l.map fun e => roundUp c.pageSize e.extendLen).sum

@[simp] theorem pagedTokens_nil : c.pagedTokens [] = 0 := rfl

@[simp] theorem pagedTokens_append (l : List Admitted) (e : Admitted) :
    c.pagedTokens (l ++ [e]) = c.pagedTokens l + roundUp c.pageSize e.extendLen := by
  simp [pagedTokens]

/-- The pages of a batch are covered by what it is charged. -/
theorem batchPages_le (c : AdderConfig) (l : List Admitted) :
    c.batchPages l * c.pageSize ≤ c.pagedTokens l := by
  induction l with
  | nil => simp [batchPages]
  | cons e l ih =>
    have h := sub_div_mul_le_roundUp c.pageSize_pos (e.prefixLen : Int) e.extendLen
    simp only [batchPages, pagedTokens, List.map_cons, List.sum_cons, add_mul] at ih ⊢
    exact add_le_add h ih

variable {prefixLen : Nat} {align : Option ℕ+}

theorem truncLen_le {limit len : Int} (h : c.truncLen limit prefixLen align = some len) :
    0 < len ∧ len ≤ limit / c.pageSize * c.pageSize := by
  have hp : (0 : Int) < c.pageSize := Int.natCast_pos.mpr c.pageSize_pos
  simp only [truncLen] at h
  split_ifs at h with hw
  obtain ⟨t, ht, hlen⟩ := bind_eq_some_iff.mp h
  have hle : t ≤ limit / c.pageSize * c.pageSize := by
    rcases align with - | n
    · exact (some.inj ht).ge
    · simp only at ht
      split_ifs at ht
      rw [← some.inj ht]
      exact Int.mul_ediv_self_le (Int.natCast_ne_zero.mpr n.ne_zero)
  split_ifs at hlen with h0
  rw [not_le] at h0
  rw [some.injEq] at hlen
  subst hlen
  have := Int.ediv_mul_le (t + prefixLen) hp.ne'
  exact ⟨h0, by linarith⟩

theorem roundUp_truncLen_le {limit len : Int}
    (h : c.truncLen limit prefixLen align = some len) : roundUp c.pageSize len ≤ limit := by
  have hp : (0 : Int) < c.pageSize := natCast_pos.mpr c.pageSize_pos
  exact (roundUp_le c.pageSize_pos (truncLen_le h).2 (dvd_mul_left _ _)).trans
    (Int.ediv_mul_le limit hp.ne')

theorem remainingNewTokens_nonneg (c : AdderConfig) (r : GenLengths) : 0 ≤ c.remainingNewTokens r :=
  le_min (le_max_right _ _) (natCast_nonneg _)

theorem clippedNewTokens_nonneg (c : AdderConfig) (r : GenLengths) : 0 ≤ c.clippedNewTokens r :=
  le_min (natCast_nonneg _) (natCast_nonneg _)

theorem runningRequestTotalTokenOffset_nonneg (c : AdderConfig) (r : RunningReq) :
    0 ≤ c.runningRequestTotalTokenOffset r.toGenLengths := by
  refine c.rounding.round_nonneg (mul_nonneg (cast_nonneg (le_min ?_ ?_)) ?_)
  · have := r.within_limit
    omega
  · exact natCast_nonneg _
  · rw [ratioOf]
    split_ifs
    · exact zero_le_one
    · exact c.ratio_nonneg

end AdderConfig

namespace PrefillAdder

/-! ### The fields of a charged adder -/

section Charge

variable (a : PrefillAdder σ) (ext mn : Int)

@[simp] theorem cache_updatePrefillBudget : (a.updatePrefillBudget c P ext mn).cache = a.cache := rfl

@[simp] theorem canRunList_updatePrefillBudget :
    (a.updatePrefillBudget c P ext mn).canRunList = a.canRunList := rfl

@[simp] theorem remChunkTokens_updatePrefillBudget :
    (a.updatePrefillBudget c P ext mn).remChunkTokens =
      a.remChunkTokens.map (· - roundUp c.pageSize ext) := rfl

@[simp] theorem curRemTokenOffset_updatePrefillBudget :
    (a.updatePrefillBudget c P ext mn).curRemTokenOffset =
      a.curRemTokenOffset + (roundUp c.pageSize ext + c.pageSize) := rfl

@[simp] theorem remTotalTokenOffset_updatePrefillBudget :
    (a.updatePrefillBudget c P ext mn).remTotalTokenOffset = c.rounding.round
      (a.remTotalTokenOffset + (roundUp c.pageSize ext + mn + c.pageSize : Int)) := rfl

@[simp] theorem remSwaTokenOffset_updatePrefillBudget :
    (a.updatePrefillBudget c P ext mn).remSwaTokenOffset = if c.isHybridSwa then
        a.remSwaTokenOffset + a.swaBudgetForReq c P (roundUp c.pageSize ext) mn 0
      else a.remSwaTokenOffset := rfl

end Charge

/-- Two adders with the same budgets and the same requests; what the tree cache holds may differ. -/
structure SameBudgets (a a' : PrefillAdder σ) : Prop where
  remInputTokens : a'.remInputTokens = a.remInputTokens
  remChunkTokens : a'.remChunkTokens = a.remChunkTokens
  remTotalTokenOffset : a'.remTotalTokenOffset = a.remTotalTokenOffset
  curRemTokenOffset : a'.curRemTokenOffset = a.curRemTokenOffset
  remSwaTokenOffset : a'.remSwaTokenOffset = a.remSwaTokenOffset
  canRunList : a'.canRunList = a.canRunList

theorem SameBudgets.refl (a : PrefillAdder σ) : SameBudgets a a := ⟨rfl, rfl, rfl, rfl, rfl, rfl⟩

theorem SameBudgets.withCache (a : PrefillAdder σ) (s : σ) :
    SameBudgets a { a with cache := s } := ⟨rfl, rfl, rfl, rfl, rfl, rfl⟩

theorem SameBudgets.withReqStates (a : PrefillAdder σ) (l : Option (List ReqState)) :
    SameBudgets a { a with reqStates := l } := ⟨rfl, rfl, rfl, rfl, rfl, rfl⟩

variable (P) in
/-- The adder when the last node is locked. -/
def locked (a : PrefillAdder σ) (node : ν) : PrefillAdder σ :=
  { a with cache := (P.incLockRef a.cache node).1 }

variable (c P) in
/-- What the checks under the lock have established when they let a request through: the chunk
limit is `limit`, first without the lock and then with it. -/
structure Passed (a : PrefillAdder σ) (req : Req ν) (limit : Option Int) : Prop where
  total : ((req.candExtendInputLen + c.remainingNewTokens req.toGenLengths + c.pageSize : Int) : ℚ) <
    (a.locked P req.lastNode).remTotalTokens c P
  gate : ∃ limit₀, a.swaGate c P req
      (roundUp c.pageSize (req.candExtendInputLen - req.hostHitLength)) a.remChunkTokens =
        some limit₀ ∧
    (a.locked P req.lastNode).swaGate c P req
      (roundUp c.pageSize (req.candExtendInputLen - req.hostHitLength)) limit₀ = some limit

variable (c) in
/-- The part of a request that is prefilled: all of it within the limit, or a truncated chunk. -/
inductive Extend (req : Req ν) (limit : Option Int) (align : Option ℕ+) (prefixLen : Nat) :
    Admitted → Int → Int → Prop where
  | whole {cand : Int} (hc : cand = (req.fillLen : Int) - prefixLen)
      (h : ∀ l, limit = some l → roundUp c.pageSize cand ≤ l) :
      Extend req limit align prefixLen ⟨req.toGenLengths, prefixLen, cand⟩ (roundUp c.pageSize cand)
        (c.clippedNewTokens req.toGenLengths)
  | truncated {l len : Int} (hl : limit = some l)
      (hlt : l < roundUp c.pageSize ((req.fillLen : Int) - prefixLen))
      (h : c.truncLen l prefixLen align = some len) :
      Extend req limit align prefixLen ⟨req.toGenLengths, prefixLen, len⟩ len 0

variable (c P) in
/-- How a call of `add_one_req` can end. -/
inductive Outcome (a : PrefillAdder σ) (req : Req ν) (align : Option ℕ+) (ans : Answers σ ν) :
    PrefillAdder σ → Prop where
  /-- refused before the lock -/
  | refused {a' : PrefillAdder σ} (same : SameBudgets a a') (hc : a'.cache = a.cache) :
      Outcome a req align ans a'
  /-- refused under the lock -/
  | unlocked {a' : PrefillAdder σ} (same : SameBudgets a a')
      (hc : a'.cache = P.decLockRef (P.incLockRef a.cache req.lastNode).1 req.lastNode
        (P.incLockRef a.cache req.lastNode).2) : Outcome a req align ans a'
  /-- refused after the load-back -/
  | unloaded {a' : PrefillAdder σ} {limit : Option Int} (same : SameBudgets a a')
      (pass : Passed c P a req limit)
      (hc : a'.cache = P.decLockRef ((a.locked P req.lastNode).loadBack req ans).cache req.lastNode
        (P.incLockRef a.cache req.lastNode).2) : Outcome a req align ans a'
  /-- admitted, with the lock of the request in place of the temporary one -/
  | accepted {a' : PrefillAdder σ} {limit : Option Int} {e : Admitted} {ext mn : Int} (pass : Passed c P a req limit)
      (ext_ok : Extend c req limit align
        (req.prefixLen + ((a.locked P req.lastNode).loadBack req ans).newIndices) e ext mn)
      (same : SameBudgets ((a.append e).updatePrefillBudget c P ext mn) a')
      (hc : a'.cache = P.decLockRef
        (P.incLockRef ((a.locked P req.lastNode).loadBack req ans).cache
          ((a.locked P req.lastNode).loadBack req ans).lastNode).1 req.lastNode
        (P.incLockRef a.cache req.lastNode).2) : Outcome a req align ans a'
  /-- admitted by `add_one_req_ignore_eos` -/
  | ignoringEos {a' : PrefillAdder σ} {e : Admitted} {mn : Int}
      (eos : req.ignoreEos) (disabled : P.disabled)
      (fits : (roundUp c.pageSize req.candExtendInputLen : ℚ) ≤
        min (a.curRemTokens P : ℚ) (a.remTotalTokens c P))
      (swaFits : c.isHybridSwa → a.swaBudgetForReq c P req.candExtendInputLen
        (c.remainingNewTokens req.toGenLengths) 0 ≤ a.remSwaTokens P)
      (len : e.extendLen = req.candExtendInputLen ∧
          (∀ rem, a.remChunkTokens = some rem → req.candExtendInputLen ≤ rem) ∨
        0 < e.extendLen ∧ a.remChunkTokens = some e.extendLen ∧
          e.extendLen < req.candExtendInputLen)
      (hmn : 0 ≤ mn)
      (same : SameBudgets ((a.append e).updatePrefillBudget c P e.extendLen mn) a')
      (hc : a'.cache = a.cache) : Outcome a req align ans a'

variable {a a' : PrefillAdder σ} {req : Req ν} {align : Option ℕ+} {ans : Answers σ ν}
  {res : AddReqResult} {r : Option AddReqResult} {b : PrefillAdder σ}

theorem addOneReqIgnoreEos_outcome (heos : req.ignoreEos) (hdis : P.disabled)
    (h : a.addOneReqIgnoreEos c P req ans = some (res, a')) : Outcome c P a req align ans a' := by
  simp only [addOneReqIgnoreEos] at h
  split_ifs at h with hfit hswa hdec hdel hwhole htile
  · cases h; exact .refused (.refl a) rfl
  · cases h; exact .refused (.refl a) rfl
  · cases h; exact .refused (.withReqStates a _) rfl
  · cases h; exact .refused (.withReqStates a _) rfl
  · cases h; exact .refused (.withReqStates a _) rfl
  · cases h
    refine .ignoringEos (e := ⟨req.toGenLengths, req.prefixLen, req.candExtendInputLen⟩) heos hdis
      (not_lt.mp hfit) (fun hh => not_lt.mp fun hlt => hswa ⟨hh, hlt⟩)
      (.inl ⟨rfl, fun rem hrem => ?_⟩) (c.clippedNewTokens_nonneg _) ⟨rfl, rfl, rfl, rfl, rfl, rfl⟩ rfl
    rw [hrem] at hwhole
    simpa using hwhole
  · obtain ⟨len, hlen, h⟩ := bind_eq_some_iff.mp h
    have hlt : len < req.candExtendInputLen := by
      rw [hlen] at hwhole
      simpa using hwhole
    rw [addChunkIgnoreEos] at h
    split_ifs at h with h0 htile
    · cases h; exact .refused (.withReqStates a _) rfl
    · cases h; exact .refused (.withReqStates a _) rfl
    · cases h
      exact .ignoringEos (e := ⟨req.toGenLengths, req.prefixLen, len⟩) heos hdis
        (not_lt.mp hfit) (fun hh => not_lt.mp fun hlt => hswa ⟨hh, hlt⟩)
        (.inr ⟨not_le.mp h0, hlen, hlt⟩) le_rfl ⟨rfl, rfl, rfl, rfl, rfl, rfl⟩ rfl

theorem addLoaded_cases {limit : Option Int} {prefixLen : Nat} {lastNode : ν}
    (h : a.addLoaded c P req limit align ans prefixLen lastNode = (r, b)) :
    b = a ∨ ∃ e chunked ext mn, Extend c req limit align prefixLen e ext mn ∧
      b = a.accept c P lastNode e chunked ext mn := by
  simp only [addLoaded] at h
  by_cases hin : a.inputStops (c.ceilPagedTokens ((req.fillLen : Int) - prefixLen))
  · rw [if_pos hin] at h; cases h; exact .inl rfl
  rw [if_neg hin] at h
  by_cases hall : limit.all (fun l => decide
    (c.ceilPagedTokens ((req.fillLen : Int) - prefixLen) ≤ l))
  · rw [if_pos hall] at h
    split_ifs at h with htile
    · cases h; exact .inl rfl
    · cases h
      refine .inr ⟨_, _, _, _, .whole rfl fun l hl => ?_, rfl⟩
      rw [hl, all_some] at hall
      exact of_decide_eq_true hall
  · rw [if_neg hall] at h
    rcases limit with - | l
    · simp at hall
    have hlt : l < roundUp c.pageSize ((req.fillLen : Int) - prefixLen) := by
      rw [all_some, decide_eq_true_eq, not_le] at hall
      exact hall
    rcases htr : c.truncLen l prefixLen align with - | len
    · simp only [bind_some, htr] at h
      cases h; exact .inl rfl
    simp only [bind_some, htr] at h
    split_ifs at h with htile
    · cases h; exact .inl rfl
    · cases h
      exact .inr ⟨_, _, _, _, .truncated rfl hlt htr, rfl⟩

/-- What the body of `add_one_req` does under the lock, up to the release. -/
theorem addUnderLock_cases {limit₀ : Option Int} {total real : Int} (h : a.addUnderLock c P req total real limit₀ align ans = (r, b)) :
    b = a ∨ ∃ limit, (total : ℚ) < a.remTotalTokens c P ∧
      a.swaGate c P req real limit₀ = some limit ∧
      (b = { a with cache := (a.loadBack req ans).cache } ∨
        ∃ e chunked ext mn,
          Extend c req limit align (req.prefixLen + (a.loadBack req ans).newIndices) e ext mn ∧
          b = ({ a with cache := (a.loadBack req ans).cache }).accept c P
            (a.loadBack req ans).lastNode e chunked ext mn) := by
  simp only [addUnderLock] at h
  by_cases htotal : (total : ℚ) ≥ a.remTotalTokens c P
  · rw [if_pos htotal] at h; cases h; exact .inl rfl
  rw [if_neg htotal] at h
  rcases hgate : a.swaGate c P req real limit₀ with - | limit
  · rw [hgate] at h; cases h; exact .inl rfl
  rw [hgate] at h
  split_ifs at h with hdel
  · cases h; exact .inl rfl
  · exact .inr ⟨limit, not_le.mp htotal, rfl, addLoaded_cases h⟩

/-- **How a call of `add_one_req` ends.** -/
theorem addOneReq_outcome (h : a.addOneReq c P req align ans = some (res, a')) :
    Outcome c P a req align ans a' := by
  simp only [addOneReq] at h
  by_cases hdsa : (c.dsaPrefillCpInSeqSplit && !a.canRunList.isEmpty)
  · rw [if_pos hdsa] at h; cases h; exact .refused (.refl a) rfl
  rw [if_neg hdsa] at h
  by_cases hmax : c.prefillMaxRequests.any (fun x => decide (x ≤ a.canRunList.length))
  · rw [if_pos hmax] at h; cases h; exact .refused (.refl a) rfl
  rw [if_neg hmax] at h
  by_cases heos : (req.ignoreEos && P.disabled)
  · rw [if_pos heos] at h
    rw [Bool.and_eq_true] at heos
    exact addOneReqIgnoreEos_outcome heos.1 heos.2 h
  rw [if_neg heos] at h
  split at h
  · cases h; exact .refused (.refl a) rfl
  rcases hgate₀ : a.swaGate c P req
    (c.ceilPagedTokens (req.candExtendInputLen - req.hostHitLength)) a.remChunkTokens with - | limit₀
  · rw [hgate₀] at h; cases h; exact .refused (.refl a) rfl
  rw [hgate₀] at h
  simp only at h
  split at h
  · cases h; exact .refused (.refl a) rfl
  rw [some.injEq, withLockNode] at h
  rcases hbody : (a.locked P req.lastNode).addUnderLock c P req
    (req.candExtendInputLen + c.remainingNewTokens req.toGenLengths + c.pageSize)
    (c.ceilPagedTokens (req.candExtendInputLen - req.hostHitLength)) limit₀ align ans with ⟨r, b⟩
  have hbody' := hbody
  rw [locked] at hbody'
  simp only [hbody', Prod.mk.injEq] at h
  obtain ⟨-, rfl⟩ := h
  obtain rfl | ⟨limit, ht, hg, rfl | ⟨e, chunked, ext, mn, hext, rfl⟩⟩ := addUnderLock_cases hbody
  · exact .unlocked ⟨rfl, rfl, rfl, rfl, rfl, rfl⟩ rfl
  · exact .unloaded ⟨rfl, rfl, rfl, rfl, rfl, rfl⟩ ⟨ht, limit₀, hgate₀, hg⟩ rfl
  · exact .accepted ⟨ht, limit₀, hgate₀, hg⟩ hext ⟨rfl, rfl, rfl, rfl, rfl, rfl⟩ rfl

end PrefillAdder

/-- What the adder relies on when it locks a node: a lock that is released gives the tokens back, and
a second lock of the node keeps them protected when the first is released. -/
structure LockContract (P : TreePort σ ν) (size : σ → Int) (Ok : σ → Prop) (Live : σ → ν → Prop) :
    Prop where
  unlock : ∀ {s n}, Ok s → Live s n →
    Ok (P.decLockRef (P.incLockRef s n).1 n (P.incLockRef s n).2) ∧
      size s ≤ size (P.decLockRef (P.incLockRef s n).1 n (P.incLockRef s n).2)
  keep : ∀ {s n}, Ok s → Live s n →
    Ok (P.decLockRef (P.incLockRef (P.incLockRef s n).1 n).1 n (P.incLockRef s n).2) ∧
      size (P.incLockRef s n).1 ≤
        size (P.decLockRef (P.incLockRef (P.incLockRef s n).1 n).1 n (P.incLockRef s n).2)

end SglangRuntime.Admission
