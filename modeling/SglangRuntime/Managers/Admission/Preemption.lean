import Mathlib
import SglangRuntime.Managers.Admission.Model

/-!
# Managers — preemption and the admission that follows

`preempt_to_schedule` releases running requests until the estimates cover the new request, and
`add_one_req` is called for it next.  The two compare different sums: the estimate leaves out the
page `add_one_req` reserves, the strict comparison, and the cached prefix of the request, which
counts as evictable until it is locked.  `Enough` says what the release has to return so that the
gates of `add_one_req` open.

The choice of the requests is the one of `Scheduling.PrefillAdder`, which computes exactly, so the
budgets do here as well.
-/

namespace SglangRuntime

open Foundation
open Scheduling (SchedulerConfig AddReqResult Reorder Rid)

namespace Admission

open Scheduling.PrefillAdder (Chosen Beats totalOffset minTokensToRemove keyLe preemptKey
  runningRequestTotalTokenOffset preemptibleReqs_chosen)

/-- A waiting request with its priority. -/
structure PriorityReq (ν : Type) extends Req ν where
  rid : Rid
  priority : Option Int

/-- As `preempt_to_schedule` reads it. -/
def PriorityReq.toScheduling {ν : Type} (req : PriorityReq ν) : Scheduling.Req :=
  ⟨req.rid, req.priority, 0, false, req.ignoreEos, req.maxNewTokens, req.outputLen, req.fillLen,
    req.prefixLen, false, false, false⟩

/-- The cache with `release_req`: the request's pages go back to the pool, and its prefix is
unlocked. -/
structure ReleasePort (σ ν : Type) extends TreePort σ ν where
  releaseReq : σ → Rid → σ

/-- The options of both halves of the adder. -/
structure PreemptConfig where
  scheduler : SchedulerConfig
  /-- its running batch is what the release leaves, as `add_one_req` finds it -/
  adder : AdderConfig
  exact : adder.rounding = .exact
  no_swa : adder.isHybridSwa = false

namespace PrefillAdder

variable {σ ν : Type} (c : AdderConfig) (P : TreePort σ ν)

/-- What is free or can be evicted. -/
def poolTokens (s : σ) : Int := P.availableSize s + P.evictableSize s

/-- `total_tokens` of `add_one_req`. -/
def totalTokens (req : Req ν) : Int :=
  req.candExtendInputLen + c.remainingNewTokens req.toGenLengths + c.pageSize

section

variable (a : PrefillAdder σ)

/-- The limits on the number of requests of the batch. -/
def batchStops : Bool :=
  (c.dsaPrefillCpInSeqSplit && !a.canRunList.isEmpty) ||
    c.prefillMaxRequests.any (decide <| · ≤ a.canRunList.length)

/-- The gates of `add_one_req` with `freed` tokens more in the pool and `offsets` less estimated,
where the lock on the cached prefix takes `locked` tokens. -/
def Enough (req : Req ν) (freed locked : Int) (offsets : ℚ) : Prop :=
  if req.ignoreEos && P.disabled then
    (c.ceilPagedTokens req.candExtendInputLen : ℚ) ≤
        min ((a.curRemTokens P + freed : Int) : ℚ) (a.remTotalTokens c P + offsets + freed) ∧
      c.decodeTokensFit (a.curRemTokens P + freed - c.ceilPagedTokens req.candExtendInputLen)
        (a.considerReqState c req) 0
  else
    (totalTokens c req : ℚ) < a.remTotalTokens c P + offsets + freed ∧
      (totalTokens c req + locked : ℚ) < a.remTotalTokens c P + offsets + freed

/-- `NO_TOKEN`, and the request is not in the batch. -/
def Refused (r : Option (AddReqResult × PrefillAdder σ)) : Prop :=
  ∃ a', r = some (.noToken, a') ∧ a'.canRunList = a.canRunList

end

variable {c P} {a : PrefillAdder σ} {req : Req ν} {align : Option ℕ+} {ans : Answers σ ν}
  {limit : Option Int} {r : Option AddReqResult} {b : PrefillAdder σ}

theorem not_refused_of_grown {r : Option (AddReqResult × PrefillAdder σ)}
    (h : ∀ res a', r = some (res, a') → res = .noToken → a.canRunList.length < a'.canRunList.length) :
    ¬Refused a r := by
  rintro ⟨a', hr, hlist⟩
  have hlt := h _ a' hr rfl
  rw [hlist] at hlt
  exact lt_irrefl _ hlt

theorem addOneReqIgnoreEos_refused_iff (hswa : c.isHybridSwa = false) (hdelay : ans.delayerAllows) :
    Refused a (a.addOneReqIgnoreEos c P req ans) ↔
      ¬((c.ceilPagedTokens req.candExtendInputLen : ℚ) ≤
          min (a.curRemTokens P : ℚ) (a.remTotalTokens c P) ∧
        c.decodeTokensFit (a.curRemTokens P - c.ceilPagedTokens req.candExtendInputLen)
          (a.considerReqState c req) 0) := by
  simp only [addOneReqIgnoreEos, hswa, hdelay]
  split_ifs with hfit hno hdec hdel hwhole htile
  · exact iff_of_true ⟨a, rfl, rfl⟩ fun h => absurd h.1 (not_le.mpr hfit)
  · exact absurd hno.1 nofun
  · refine iff_of_true ⟨_, rfl, rfl⟩ fun h => ?_
    simp_all [curRemTokens]
  · exact absurd hdel (by simp)
  all_goals
    refine iff_of_false (not_refused_of_grown fun res a' h hres => ?_) (not_not.mpr
      ⟨not_lt.mp hfit, by simpa [curRemTokens] using hdec⟩)
  · cases h; cases hres
  · cases h; simp [append, updatePrefillBudget]
  · obtain ⟨len, -, h⟩ := Option.bind_eq_some_iff.mp h
    rw [addChunkIgnoreEos] at h
    split_ifs at h with h0 htile
    · cases h; cases hres
    · cases h; cases hres
    · cases h; simp [append, updatePrefillBudget]

theorem addLoaded_refuses_not {prefixLen : Nat} {lastNode : ν}
    (h : a.addLoaded c P req limit align ans prefixLen lastNode = (r, b)) :
    r = some .other ∨ r = none ∧ a.canRunList.length < b.canRunList.length := by
  simp only [addLoaded] at h
  split_ifs at h
  · cases h; exact .inl rfl
  · cases h; exact .inl rfl
  · cases h; exact .inr ⟨rfl, by simp [accept, append, updatePrefillBudget]⟩
  · split at h
    · cases h; exact .inl rfl
    · split_ifs at h
      · cases h; exact .inl rfl
      · cases h; exact .inr ⟨rfl, by simp [accept, append, updatePrefillBudget]⟩

theorem addUnderLock_refuses_iff {real : Int} (hswa : c.isHybridSwa = false) (hdelay : ans.delayerAllows)
    (h : a.addUnderLock c P req (totalTokens c req) real limit align ans = (r, b)) :
    (a.remTotalTokens c P ≤ totalTokens c req ∧ r = some .noToken ∧ b = a) ∨
      ((totalTokens c req : ℚ) < a.remTotalTokens c P ∧
        (r = some .other ∨ r = none ∧ a.canRunList.length < b.canRunList.length)) := by
  simp only [addUnderLock, swaGate, hswa, hdelay, Bool.false_eq_true, false_and, if_false,
    Bool.not_true] at h
  split_ifs at h with htotal
  · cases h; exact .inl ⟨htotal, rfl, rfl⟩
  · have hloaded := addLoaded_refuses_not h
    exact .inr ⟨not_le.mp htotal, hloaded⟩

/-- **When `add_one_req` refuses**: a gate on the remaining tokens is closed, before or after the
lock. -/
theorem addOneReq_refused_iff (hswa : c.isHybridSwa = false) (hchunk : a.remChunkTokens.isSome)
    (hdelay : ans.delayerAllows) (hstop : a.batchStops c = false)
    (hpath : (req.ignoreEos && P.disabled) = false) :
    Refused a (a.addOneReq c P req align ans) ↔
      ¬((totalTokens c req : ℚ) < a.remTotalTokens c P ∧ (totalTokens c req : ℚ) <
        ({ a with cache := (P.incLockRef a.cache req.lastNode).1 }).remTotalTokens c P) := by
  obtain ⟨hdsa, hmax⟩ := Bool.or_eq_false_iff.mp hstop
  have hinput : ∀ n, a.inputStops n = false := fun n => by
    rw [inputStops, Option.isNone_eq_false_iff.mpr hchunk, Bool.false_and, Bool.false_and]
  rw [addOneReq, hdsa, hmax, hpath]
  simp only [Bool.false_eq_true, if_false, swaGate, hswa, false_and, hinput, withLockNode]
  split_ifs with htotal
  · exact iff_of_true ⟨a, rfl, rfl⟩ fun h => absurd h.1 (not_lt.mpr htotal)
  rcases hbody : addUnderLock c P { a with cache := (P.incLockRef a.cache req.lastNode).1 } req
    (totalTokens c req) (c.ceilPagedTokens (req.candExtendInputLen - req.hostHitLength))
    a.remChunkTokens align ans with ⟨r, b⟩
  simp only [totalTokens] at hbody
  simp only [hbody]
  obtain ⟨hle, rfl, rfl⟩ | ⟨hlt, hr⟩ := addUnderLock_refuses_iff hswa hdelay hbody
  · exact iff_of_true ⟨_, rfl, rfl⟩ fun h => absurd h.2 (not_lt.mpr hle)
  refine iff_of_false (not_refused_of_grown fun res a' h hres => ?_)
    (not_not.mpr ⟨not_le.mp htotal, hlt⟩)
  cases h
  obtain rfl | ⟨-, hgrown⟩ := hr
  · cases hres
  · exact hgrown

end PrefillAdder

/-! ### `preempt_to_schedule` with its budgets -/

/-- The requests of the adder, and its budgets. -/
structure PreemptingAdder (σ : Type) where
  sched : Scheduling.PrefillAdder
  budget : PrefillAdder σ

namespace PreemptingAdder

variable {σ ν : Type} (K : PreemptConfig) (P : ReleasePort σ ν)

/-- One turn of the loop that releases. -/
def releaseOne (b : PrefillAdder σ) (r : Scheduling.Req) : PrefillAdder σ :=
  { b with
    remTotalTokenOffset := K.adder.rounding.round (b.remTotalTokenOffset -
      runningRequestTotalTokenOffset K.scheduler r)
    cache := P.releaseReq b.cache r.rid }

/-- The requests of the running batch that are released, in its order. -/
def released (a : PreemptingAdder σ) (l : List Scheduling.Req) : List Scheduling.Req :=
  a.sched.runningBatch.reqs.filter fun r => decide (r.rid ∈ l.map (·.rid))

variable (setOrder : Reorder)

def preemptToSchedule (a : PreemptingAdder σ) (req : PriorityReq ν) :
    Option (Bool × PreemptingAdder σ) :=
  (a.sched.preemptibleReqs K.scheduler req.toScheduling
      (a.budget.remTotalTokens K.adder P.toTreePort)).map fun l =>
    if l = [] then (false, a)
    else (true, ⟨a.sched.preempt setOrder l, (a.released l).foldl (releaseOne K P) a.budget⟩)

/-- The requests and the answer are those of the scheduler's model. -/
theorem preemptToSchedule_sched (a : PreemptingAdder σ) (req : PriorityReq ν) :
    (a.preemptToSchedule K P setOrder req).map (fun r => (r.1, r.2.sched)) =
      a.sched.preemptToSchedule K.scheduler setOrder req.toScheduling
        (a.budget.remTotalTokens K.adder P.toTreePort) := by
  rw [preemptToSchedule, Scheduling.PrefillAdder.preemptToSchedule, Option.map_map]
  congr 1
  funext l
  rw [Function.comp_apply]
  split_ifs <;> rfl

variable {K P}

theorem foldl_releaseOne (rs : List Scheduling.Req) (b : PrefillAdder σ) :
    rs.foldl (releaseOne K P) b = { b with
      remTotalTokenOffset :=
        b.remTotalTokenOffset - totalOffset K.scheduler rs
      cache := rs.foldl (fun s r => P.releaseReq s r.rid) b.cache } := by
  induction rs generalizing b with
  | nil => simp [totalOffset]
  | cons r rs ih =>
    rw [List.foldl_cons, ih]
    simp only [releaseOne, K.exact, Rounding.exact, id, totalOffset,
      List.map_cons, List.sum_cons, List.foldl_cons, sub_sub]

section

variable (P : ReleasePort σ ν)

section

variable (a : PreemptingAdder σ)

section

variable (l : List Scheduling.Req)

/-- The cache once they are released. -/
def cacheAfter : σ :=
  (a.released l).foldl (fun s r => P.releaseReq s r.rid) a.budget.cache

/-- What the release returns to the pool, in free and in evictable tokens. -/
def freedTokens : Int :=
  PrefillAdder.poolTokens P.toTreePort (a.cacheAfter P l) -
    PrefillAdder.poolTokens P.toTreePort a.budget.cache

/-- What the lock on the request's cached prefix then takes. -/
def lockedTokens
    (req : Req ν) : Int :=
  PrefillAdder.poolTokens P.toTreePort (a.cacheAfter P l) -
    PrefillAdder.poolTokens P.toTreePort (P.incLockRef (a.cacheAfter P l) req.lastNode).1

end

end

end

theorem enough_iff {a : PreemptingAdder σ} {l : List Scheduling.Req} {req : Req ν}
    {align : Option ℕ+} {ans : Answers σ ν} (hchunk : a.budget.remChunkTokens.isSome)
    (hdelay : ans.delayerAllows) {b : PrefillAdder σ}
    (hb : b = (a.released l).foldl (releaseOne K P) a.budget) :
    ¬b.Refused (b.addOneReq K.adder P.toTreePort req align ans) ↔
      a.budget.batchStops K.adder ∨
        a.budget.Enough K.adder P.toTreePort req (a.freedTokens P l) (a.lockedTokens P l req)
          (totalOffset K.scheduler (a.released l)) := by
  rw [foldl_releaseOne] at hb
  have hlist : b.canRunList = a.budget.canRunList := by rw [hb]
  have hcur : b.curRemTokens P.toTreePort = a.budget.curRemTokens P.toTreePort + a.freedTokens P l := by
    rw [hb, PrefillAdder.curRemTokens, PrefillAdder.curRemTokens, freedTokens,
      PrefillAdder.poolTokens, PrefillAdder.poolTokens, cacheAfter]
    ring
  have htotal : b.remTotalTokens K.adder P.toTreePort =
      a.budget.remTotalTokens K.adder P.toTreePort +
        totalOffset K.scheduler (a.released l) + a.freedTokens P l := by
    rw [hb]
    simp only [PrefillAdder.remTotalTokens, K.exact, Rounding.exact, id, freedTokens,
      PrefillAdder.poolTokens, cacheAfter]
    push_cast
    ring
  have hstops : b.batchStops K.adder = a.budget.batchStops K.adder := by
    rw [PrefillAdder.batchStops, hlist, PrefillAdder.batchStops]
  rcases hstop : a.budget.batchStops K.adder with - | -
  · rw [hstop] at hstops
    rcases hpath : req.ignoreEos && P.disabled with - | -
    · have hlocked : ({ b with cache := (P.incLockRef b.cache req.lastNode).1 }).remTotalTokens
          K.adder P.toTreePort = b.remTotalTokens K.adder P.toTreePort - a.lockedTokens P l req := by
        rw [hb]
        simp only [PrefillAdder.remTotalTokens, K.exact, Rounding.exact, id, lockedTokens,
          PrefillAdder.poolTokens, cacheAfter]
        push_cast
        ring
      rw [PrefillAdder.addOneReq_refused_iff K.no_swa (by rwa [hb]) hdelay hstops hpath, not_not,
        hlocked, htotal, PrefillAdder.Enough, hpath, lt_sub_iff_add_lt]
      simp
    · obtain ⟨hdsa, hmax⟩ := Bool.or_eq_false_iff.mp hstops
      have heos : b.addOneReq K.adder P.toTreePort req align ans =
          b.addOneReqIgnoreEos K.adder P.toTreePort req ans := by
        rw [PrefillAdder.addOneReq, hdsa, hmax, hpath]
        rfl
      have hstates : b.considerReqState K.adder req = a.budget.considerReqState K.adder req := by
        rw [hb]
        rfl
      rw [heos, PrefillAdder.addOneReqIgnoreEos_refused_iff K.no_swa hdelay, not_not, hcur, htotal,
        hstates, PrefillAdder.Enough, hpath]
      simp
  · refine iff_of_true (PrefillAdder.not_refused_of_grown fun res a' h hres => ?_) (.inl rfl)
    rw [hstop, PrefillAdder.batchStops, Bool.or_eq_true] at hstops
    rw [PrefillAdder.addOneReq] at h
    split_ifs at h with hdsa hmax
    · cases h; cases hres
    · cases h; cases hres
    all_goals exact absurd hstops (not_or_intro hdsa hmax)

def pageConfig : PreemptConfig where
  scheduler := ⟨true, false, false, false, 0, none, 1, none, .null, false, false, false, false, false,
    none, false, false, true, 1, 4096⟩
  adder := ⟨16, by decide, false, 4096, 1, ratio_one_nonneg, [], none, false, .exact⟩
  exact := rfl
  no_swa := rfl

/-- The cache is the number of free tokens. -/
def pagePort : ReleasePort Nat Unit where
  Receipt := Unit
  disabled := false
  incLockRef s _ := (s, ())
  decLockRef s _ _ := s
  availableSize s := s
  evictableSize _ := 0
  swaAvailableSize _ := 0
  swaEvictableSize _ := 0
  slidingWindowSize := 0
  sizeSwa := 0
  releaseReq s _ := s + 16

/-- Ten tokens in its page, and four left to decode. -/
def pageHolder : Scheduling.Req :=
  ⟨1, some 0, 0, false, true, 10, 6, 10, 0, true, false, false⟩

def pageAdder (available : Nat) : PreemptingAdder Nat :=
  ⟨⟨⟨[pageHolder], true, false⟩, [], [], none⟩, ⟨available, 1000, some 1000, 4, 0, 0, none, [], none⟩⟩

/-- Forty tokens to prefill and eight to decode. -/
def urgentReq : PriorityReq Unit := ⟨.unmatched ⟨false, 8, 0, 40⟩ 40 0 0 (), 2, some 1⟩

def pageAnswers : Answers Nat Unit := ⟨true, fun _ => false, fun s => ⟨s, 0, ()⟩⟩

end PreemptingAdder

end Admission

end SglangRuntime
