import SglangRuntime.Managers.Admission.FullPool
import SglangRuntime.Managers.Admission.WindowPool
import SglangRuntime.MemCache.Unified.Lock

/-!
# Managers — the head of an idle queue

A request at the head of an otherwise empty system with a sliding-window pool.  The gate compares
its budget with what the pool has left once its own cached window is locked; the escape hatch, which
cuts the chunk to the pool, opens only when the budget reaches the size of the whole pool.
`addOneReq_admits_page_iff` says exactly when a page of the request is admitted.

Between the two tests lies a gap: a budget that fits the pool but not the pool without the locked
window is refused, now and in every later pass (`addOneReq_starves`).
-/

namespace SglangRuntime.Admission

open Foundation Option PrefillAdder AdderConfig Int
open Scheduling (AddReqResult)

variable {σ ν : Type} {c : AdderConfig} {P : TreePort σ ν} {req : Req ν} {chunk : Int}

/-- An idle system with one request: nothing runs, nothing is locked, and the full pool has room for
the whole request beside its own cached prefix. -/
structure Idle (c : AdderConfig) (P : TreePort σ ν) (s : σ) (req : Req ν) (remInput chunk : Int) :
    Prop where
  hybrid : c.isHybridSwa
  running : c.runningBatch = []
  chunk_page : (c.pageSize : Int) ≤ chunk
  input_page : (c.pageSize : Int) ≤ remInput
  /-- every slot of the sliding-window pool is free or evictable -/
  unlocked : P.swaSize s = P.sizeSwa
  windows : 2 * (P.slidingWindowSize : Int) + 3 * c.pageSize ≤ P.sizeSwa
  full : req.candExtendInputLen + c.remainingNewTokens req.toGenLengths + c.pageSize <
    P.fullSize (P.incLockRef s req.lastNode).1
  no_host_hit : req.hostHitLength = 0 ∧ req.swaHostHitLength = 0
  /-- a lock frees nothing -/
  lock_full : P.fullSize (P.incLockRef s req.lastNode).1 ≤ P.fullSize s
  lock_swa : P.swaSize (P.incLockRef s req.lastNode).1 ≤ P.swaSize s

section

variable (c : AdderConfig)

/-- The batch is at least a page of the request, or all that is left of it. -/
def HoldsPage (req : Req ν) (l : List Admitted) : Prop :=
  ∃ e, l = [e] ∧ (e.extendLen = req.candExtendInputLen ∨ (c.pageSize : Int) ≤ e.extendLen)

def AdmitsPage (req : Req ν) (r : Option (AddReqResult × PrefillAdder σ)) : Prop :=
  ∃ res b, r = some (res, b) ∧ HoldsPage c req b.canRunList

section

variable (P : TreePort σ ν)

/-- The sliding-window tokens that a request without a host hit asks for, `len` tokens of which are
left to prefill. -/
def windowNeed (req : Req ν) (len chunk : Int) : Int :=
  max (min len chunk - P.slidingWindowSize) 0 +
    (min (len + c.remainingNewTokens req.toGenLengths) P.slidingWindowSize + c.pageSize)

/-- What a pool of `left` tokens can give to a chunk of the request. -/
def windowCap (req : Req ν) (left : Int) : Int :=
  left - (min (c.remainingNewTokens req.toGenLengths) P.slidingWindowSize + c.pageSize)

/-- The chunk that a pool with `left` tokens free or evictable allows: `limit` when the request fits,
a cut one when it exceeds the whole pool; `none` when the request has to wait. -/
def openLimit (req : Req ν) (chunk left limit : Int) : Option Int :=
  let needed := windowNeed c P req (roundUp c.pageSize req.candExtendInputLen) chunk
  if needed < left then some limit
  else if (P.sizeSwa : Int) ≤ needed ∧ (c.pageSize : Int) ≤ windowCap c P req left then
    some (min chunk (windowCap c P req left / c.pageSize * c.pageSize))
  else none

end

/-- Whole pages of `limit`, cut to the truncation alignment and to the end of a page, leave a page. -/
def AlignKeepsPage (limit : Int) (prefixLen : Nat) : Option ℕ+ → Prop
  | none => c.pageSize ≤
      (limit / c.pageSize * c.pageSize + prefixLen) / c.pageSize * c.pageSize - prefixLen
  | some n => (n : Int) ≤ limit / c.pageSize * c.pageSize ∧
      c.pageSize ≤ (n * (limit / c.pageSize * c.pageSize / n) + prefixLen) / c.pageSize * c.pageSize -
        prefixLen

/-- When `add_one_req` lets the head of an idle queue through. -/
def CanAdmit (P : TreePort σ ν) (s : σ) (req : Req ν) (chunk : Int)
    (align : Option ℕ+) (ans : Answers σ ν) : Prop :=
  c.prefillMaxRequests ≠ some 0 ∧ ans.delayerAllows ∧
    if req.ignoreEos && P.disabled then
      windowNeed c P req req.candExtendInputLen chunk ≤ P.sizeSwa ∧
        (req.candExtendInputLen ≤ chunk ∨ req.prefixLen = 0)
    else ∃ limit,
      openLimit c P req chunk (P.swaSize (P.incLockRef s req.lastNode).1) chunk = some limit ∧
        (roundUp c.pageSize req.candExtendInputLen ≤ limit ∨
          AlignKeepsPage c limit req.prefixLen align)

end

theorem AdderConfig.page_le_truncLen_iff {limit : Int} {prefixLen : Nat} {align : Option ℕ+} :
    (∃ len, c.truncLen limit prefixLen align = some len ∧ (c.pageSize : Int) ≤ len) ↔
      AlignKeepsPage c limit prefixLen align := by
  have hp : (0 : Int) < c.pageSize := Int.natCast_pos.mpr c.pageSize_pos
  -- the end of a page comes at most as late as the cut
  have hend : ∀ t : Int, (c.pageSize : Int) ≤ (t + prefixLen) / c.pageSize * c.pageSize - prefixLen →
      0 < t := fun t ht => by
    have := Int.ediv_mul_le (t + prefixLen) hp.ne'
    linarith
  simp only [truncLen]
  constructor
  · rintro ⟨len, h, hlen⟩
    split_ifs at h with hw
    rcases align with - | n
    · rw [bind_some] at h
      split_ifs at h
      rw [← Option.some.inj h] at hlen
      exact hlen
    · simp only at h
      split_ifs at h with hn
      · cases h
      · rw [bind_some] at h
        split_ifs at h
        rw [← Option.some.inj h] at hlen
        exact ⟨not_lt.mp hn, hlen⟩
  · intro h
    rcases align with - | n
    · refine ⟨_, ?_, h⟩
      rw [if_neg (not_le.mpr (hend _ h)), bind_some, if_neg (not_le.mpr (hp.trans_le h))]
    obtain ⟨hn, h⟩ := h
    have hn0 : (0 : Int) < n := Int.natCast_pos.mpr n.pos
    refine ⟨_, ?_, h⟩
    rw [if_neg (not_le.mpr (hn0.trans_le hn))]
    simp only
    rw [if_neg (not_lt.mpr hn), bind_some, if_neg (not_le.mpr (hp.trans_le h))]

theorem not_holdsPage_nil (req : Req ν) : ¬ HoldsPage c req [] := by
  rintro ⟨e, h, -⟩
  cases h

theorem holdsPage_singleton {e : Admitted} : HoldsPage c req [e] ↔
      e.extendLen = req.candExtendInputLen ∨ (c.pageSize : Int) ≤ e.extendLen := by
  constructor
  · rintro ⟨e', h, he⟩
    cases h
    exact he
  · exact fun h => ⟨e, rfl, h⟩

theorem admitsPage_some {r : AddReqResult × PrefillAdder σ} :
    AdmitsPage c req (some r) ↔ HoldsPage c req r.2.canRunList := by
  constructor
  · rintro ⟨res, b, h, hb⟩
    cases h
    exact hb
  · exact fun h => ⟨r.1, r.2, rfl, h⟩

namespace PrefillAdder

/-- An adder that has admitted nothing and owes nothing, with a chunk budget. -/
structure Fresh (a : PrefillAdder σ) (chunk : Int) : Prop where
  canRunList : a.canRunList = []
  remChunkTokens : a.remChunkTokens = some chunk
  remTotalTokenOffset : a.remTotalTokenOffset = 0
  curRemTokenOffset : a.curRemTokenOffset = 0
  remSwaTokenOffset : a.remSwaTokenOffset = 0

variable {s : σ} {req : Req ν} {remInput chunk : Int} {align : Option ℕ+} {ans : Answers σ ν}
  {a : PrefillAdder σ}

theorem canRunList_withLockNode (a : PrefillAdder σ) (node : ν)
    (body : PrefillAdder σ → Option AddReqResult × PrefillAdder σ) :
    (a.withLockNode c P node body).2.canRunList = (body (a.locked P node)).2.canRunList := rfl

theorem fresh_new (h : c.runningBatch = []) (s : σ) (remInput chunk : Int) :
    (new c s remInput (some chunk) 0).Fresh chunk where
  canRunList := rfl
  remChunkTokens := by simp [new]
  remTotalTokenOffset := by
    have h0 : c.rounding.round 0 = 0 := by simpa using c.rounding.round_intCast 0
    simp [new, h, Rounding.sum, h0]
  curRemTokenOffset := rfl
  remSwaTokenOffset := rfl

namespace Fresh

section

variable (h : a.Fresh chunk)
include h

theorem withCache (s : σ) : ({ a with cache := s } : PrefillAdder σ).Fresh chunk :=
  ⟨h.canRunList, h.remChunkTokens, h.remTotalTokenOffset, h.curRemTokenOffset, h.remSwaTokenOffset⟩

theorem remTotalTokens : a.remTotalTokens c P = P.fullSize a.cache := by
  rw [PrefillAdder.remTotalTokens, h.remTotalTokenOffset, sub_zero]
  exact c.rounding.round_intCast _

theorem curRemTokens : a.curRemTokens P = P.fullSize a.cache := by
  rw [PrefillAdder.curRemTokens, h.curRemTokenOffset, sub_zero, TreePort.fullSize]

theorem remSwaTokens : a.remSwaTokens P = P.swaSize a.cache := by
  rw [PrefillAdder.remSwaTokens, h.remSwaTokenOffset, sub_zero, TreePort.swaSize]

variable (len : Int)

theorem tileStops : a.tileStops ans len = false := by
  simp [PrefillAdder.tileStops, h.canRunList]

theorem inputStops : a.inputStops len = false := by
  simp [PrefillAdder.inputStops, h.canRunList]

theorem swaBudgetForReq :
    a.swaBudgetForReq c P len (c.remainingNewTokens req.toGenLengths) 0 =
      windowNeed c P req len chunk := by
  simp only [PrefillAdder.swaBudgetForReq, h.remChunkTokens, swaReservedTokens, windowNeed,
    lt_irrefl, if_false, add_zero]

theorem swaChunkCap : a.swaChunkCap c P (c.remainingNewTokens req.toGenLengths) 0 =
      if windowCap c P req (P.swaSize a.cache) ≤ 0 then 0
      else windowCap c P req (P.swaSize a.cache) / c.pageSize * c.pageSize := by
  simp only [PrefillAdder.swaChunkCap, h.remSwaTokens, swaReservedTokens, windowCap,
    lt_irrefl, if_false, add_zero, zero_add]
  rfl

/-- The gate, for a request without a host hit. -/
theorem swaGate (hyb : c.isHybridSwa) (hhost : req.swaHostHitLength = 0) (limit : Int) :
    a.swaGate c P req (roundUp c.pageSize req.candExtendInputLen) (some limit) =
      (openLimit c P req chunk (P.swaSize a.cache) limit).map some := by
  have hp : (0 : Int) < c.pageSize := natCast_pos.mpr c.pageSize_pos
  simp only [PrefillAdder.swaGate, hyb, true_and, hhost, h.swaBudgetForReq, h.remSwaTokens,
    openLimit, swaReqNeverFits, h.remChunkTokens, bind_some, h.swaChunkCap]
  generalize windowNeed c P req (roundUp c.pageSize req.candExtendInputLen) chunk = needed
  generalize windowCap c P req (P.swaSize a.cache) = cap
  -- a cap is positive once it holds a page
  have hcap : (if cap ≤ 0 then 0 else cap / c.pageSize * c.pageSize) ≤ 0 ↔
      ¬ (c.pageSize : Int) ≤ cap := by
    split_ifs with h0
    · exact ⟨fun _ h => absurd (hp.trans_le h) (not_lt.mpr h0), fun _ => le_rfl⟩
    · rw [not_le, ← not_lt, mul_pos_iff_of_pos_right hp, not_lt, ← lt_add_one_iff, zero_add,
        Int.ediv_lt_iff_lt_mul hp, one_mul]
  by_cases hneed : needed < P.swaSize a.cache
  · rw [if_neg (not_le.mpr hneed), if_pos hneed, map_some]
  rw [if_pos (not_lt.mp hneed), if_neg hneed]
  by_cases hnever : (P.sizeSwa : Int) ≤ needed
  · rw [if_pos hnever]
    by_cases hpage : (c.pageSize : Int) ≤ cap
    · have hpos := fun h => hcap.mp h hpage
      rw [if_neg hpos, if_pos (⟨hnever, hpage⟩ : _ ∧ _), if_neg (not_le.mpr (hp.trans_le hpage)),
        map_some]
    · rw [if_pos (hcap.mpr hpage), if_neg (fun h => hpage h.2), map_none]
  · rw [if_neg hnever, if_neg (fun h => hnever h.1), map_none]

theorem addLoaded (limit : Int) :
    HoldsPage c req (a.addLoaded c P req (some limit) align ans req.prefixLen
        req.lastNode).2.canRunList ↔
      roundUp c.pageSize req.candExtendInputLen ≤ limit ∨
        AlignKeepsPage c limit req.prefixLen align := by
  have hcand : (req.fillLen : Int) - req.prefixLen = req.candExtendInputLen := rfl
  have happend : ∀ (e : Admitted) (chunked : Bool) (ext mn : Int),
      (a.accept c P req.lastNode e chunked ext mn).canRunList = [e] := fun e _ _ _ => by
    change a.canRunList ++ [e] = [e]
    rw [h.canRunList, List.nil_append]
  simp only [PrefillAdder.addLoaded, hcand, ceilPagedTokens_eq, h.inputStops,
    h.tileStops, Bool.false_eq_true, if_false, all_some, decide_eq_true_eq, bind_some]
  by_cases hwhole : roundUp c.pageSize req.candExtendInputLen ≤ limit
  · rw [if_pos hwhole, happend, holdsPage_singleton]
    exact ⟨fun _ => .inl hwhole, fun _ => .inl rfl⟩
  rw [if_neg hwhole, or_iff_right hwhole, ← page_le_truncLen_iff]
  rcases htr : c.truncLen limit req.prefixLen align with - | len
  · simp only [h.canRunList]
    exact ⟨fun hl => absurd hl (not_holdsPage_nil req), by rintro ⟨_, hl, -⟩; cases hl⟩
  simp only [happend, holdsPage_singleton]
  -- a truncated chunk is never all that is left
  have hne : len ≠ req.candExtendInputLen := fun heq =>
    hwhole (heq ▸ roundUp_truncLen_le htr)
  constructor
  · rintro (heq | hle)
    · exact absurd heq hne
    · exact ⟨len, rfl, hle⟩
  · rintro ⟨len', hl, hle⟩
    exact .inr (Option.some.inj hl ▸ hle)

theorem addUnderLock (hyb : c.isHybridSwa)
    (hhost : req.hostHitLength = 0 ∧ req.swaHostHitLength = 0) {total : Int}
    (hfull : total < P.fullSize a.cache) (limit : Int) :
    HoldsPage c req (a.addUnderLock c P req total (roundUp c.pageSize req.candExtendInputLen)
        (some limit) align ans).2.canRunList ↔
      ans.delayerAllows ∧ ∃ l, openLimit c P req chunk (P.swaSize a.cache) limit = some l ∧
        (roundUp c.pageSize req.candExtendInputLen ≤ l ∨
          AlignKeepsPage c l req.prefixLen align) := by
  have hload : req.needsHostLoadBack = false := by simp [Req.needsHostLoadBack, hhost]
  have htotal : ¬ (total : ℚ) ≥ a.remTotalTokens c P := by
    rw [h.remTotalTokens, ge_iff_le, cast_le]
    exact not_le.mpr hfull
  rw [PrefillAdder.addUnderLock, if_neg htotal, h.swaGate hyb hhost.2]
  rcases openLimit c P req chunk (P.swaSize a.cache) limit with - | l
  · rw [map_none]
    simp only [h.canRunList]
    exact ⟨fun hl => absurd hl (not_holdsPage_nil req), by rintro ⟨-, _, hl, -⟩; cases hl⟩
  rw [map_some]
  simp only [loadBack, hload, Bool.false_eq_true, if_false, Nat.add_zero]
  by_cases hd : ans.delayerAllows
  · simp only [hd, Bool.not_true, Bool.false_eq_true, if_false, h.addLoaded, true_and,
      Option.some.injEq]
    exact ⟨fun hl => ⟨l, rfl, hl⟩, by rintro ⟨_, hl, h'⟩; exact hl ▸ h'⟩
  · rw [Bool.not_eq_true] at hd
    simp only [hd, Bool.not_false, if_true, h.canRunList, Bool.false_eq_true, false_and, iff_false]
    exact not_holdsPage_nil req

/-- The head of the queue without end-of-sequence tokens, over a disabled cache. -/
theorem addOneReqIgnoreEos (hyb : c.isHybridSwa) (hchunk : (c.pageSize : Int) ≤ chunk)
    (hfull : roundUp c.pageSize req.candExtendInputLen ≤ P.fullSize a.cache) :
    AdmitsPage c req (a.addOneReqIgnoreEos c P req ans) ↔
      ans.delayerAllows ∧
        windowNeed c P req req.candExtendInputLen chunk ≤ P.swaSize a.cache ∧
          (req.candExtendInputLen ≤ chunk ∨ req.prefixLen = 0) := by
  have hp : (0 : Int) < c.pageSize := natCast_pos.mpr c.pageSize_pos
  have hroom : ¬ (roundUp c.pageSize req.candExtendInputLen : ℚ) >
      min (a.curRemTokens P : ℚ) (a.remTotalTokens c P) := by
    rw [h.curRemTokens, h.remTotalTokens, min_self, gt_iff_lt, cast_lt]
    exact not_lt.mpr hfull
  simp only [PrefillAdder.addOneReqIgnoreEos, ceilPagedTokens_eq, if_neg hroom, hyb,
    true_and, h.swaBudgetForReq, h.remSwaTokens, Bool.not_true, Bool.false_and, Bool.false_eq_true,
    if_false]
  by_cases hneed : windowNeed c P req req.candExtendInputLen chunk ≤ P.swaSize a.cache
  swap
  · rw [if_pos (not_le.mp hneed), admitsPage_some, h.canRunList]
    exact ⟨fun hl => absurd hl (not_holdsPage_nil req), fun hl => absurd hl.2.1 hneed⟩
  rw [if_neg (not_lt.mpr hneed)]
  -- the states of the decode estimate are the only change before the request is added
  generalize ha' : ({ a with reqStates := some (a.considerReqState c req) } : PrefillAdder σ) = a'
  have h' : a'.Fresh chunk := ha' ▸ ⟨h.canRunList, h.remChunkTokens, h.remTotalTokenOffset,
    h.curRemTokenOffset, h.remSwaTokenOffset⟩
  by_cases hd : ans.delayerAllows
  swap
  · rw [Bool.not_eq_true] at hd
    rw [hd, Bool.not_false, if_pos rfl, admitsPage_some, h'.canRunList]
    exact ⟨fun hl => absurd hl (not_holdsPage_nil req), fun hl => absurd hl.1 Bool.false_ne_true⟩
  simp only [hd, Bool.not_true, Bool.false_eq_true, if_false, hneed, true_and, h.remChunkTokens,
    all_some, decide_eq_true_eq, h'.tileStops, bind_some]
  by_cases hwhole : req.candExtendInputLen ≤ chunk
  · rw [if_pos hwhole, admitsPage_some]
    change HoldsPage c req (a'.canRunList ++ [_]) ↔ _
    rw [h'.canRunList, List.nil_append, holdsPage_singleton]
    exact ⟨fun _ => .inl hwhole, fun _ => .inl rfl⟩
  rw [if_neg hwhole, addChunkIgnoreEos, if_neg (not_le.mpr (hp.trans_le hchunk)), h'.tileStops,
    if_neg Bool.false_ne_true, or_iff_right hwhole]
  by_cases hprefix : req.prefixLen = 0
  · rw [if_pos hprefix, admitsPage_some]
    change HoldsPage c req (a'.canRunList ++ [_]) ↔ _
    rw [h'.canRunList, List.nil_append, holdsPage_singleton]
    exact ⟨fun _ => hprefix, fun _ => .inr hchunk⟩
  · rw [if_neg hprefix]
    exact ⟨(by rintro ⟨_, _, hl, -⟩; cases hl), fun hl => absurd hl hprefix⟩

end

end Fresh

end PrefillAdder

/-- The gate lets the request through before its own window is locked. -/
theorem Idle.openLimit_unlocked {s : σ} {remInput : Int} (idle : Idle c P s req remInput chunk) :
    ∃ l, openLimit c P req chunk P.sizeSwa chunk = some l ∧
      (windowNeed c P req (roundUp c.pageSize req.candExtendInputLen) chunk < P.sizeSwa →
        l = chunk) := by
  by_cases hneed : windowNeed c P req (roundUp c.pageSize req.candExtendInputLen) chunk < P.sizeSwa
  · exact ⟨chunk, if_pos hneed, fun _ => rfl⟩
  have hcap : (c.pageSize : Int) ≤ windowCap c P req P.sizeSwa := by
    have hmin := min_le_right (c.remainingNewTokens req.toGenLengths) (P.slidingWindowSize : Int)
    have hwindows := idle.windows
    rw [windowCap]
    linarith
  refine ⟨_, (if_neg hneed).trans (if_pos ⟨not_lt.mp hneed, hcap⟩), fun h => absurd h hneed⟩

/-- **When the head of an idle queue is admitted**, for a request without a host hit. -/
theorem addOneReq_admits_page_iff {s : σ} {req : Req ν} {remInput chunk : Int}
    (idle : Idle c P s req remInput chunk) (align : Option ℕ+) (ans : Answers σ ν) :
    AdmitsPage c req ((new c s remInput (some chunk) 0).addOneReq c P req align ans) ↔
      CanAdmit c P s req chunk align ans := by
  have hf := fresh_new idle.running s remInput chunk
  have hcache : (new c s remInput (some chunk) 0).cache = s := rfl
  generalize new c s remInput (some chunk) 0 = a at hf hcache
  have hfull := idle.full.trans_le idle.lock_full
  have hmax : c.prefillMaxRequests.any (decide <| · ≤ a.canRunList.length) = true ↔
      c.prefillMaxRequests = some 0 := by
    rw [hf.canRunList]
    rcases c.prefillMaxRequests with - | n <;> simp
  rw [CanAdmit, addOneReq, hf.canRunList, List.isEmpty_nil, Bool.not_true,
    Bool.and_false, if_neg Bool.false_ne_true]
  rw [hf.canRunList] at hmax
  by_cases hm : c.prefillMaxRequests = some 0
  · rw [if_pos (hmax.mpr hm), admitsPage_some, hf.canRunList]
    exact ⟨fun hl => absurd hl (not_holdsPage_nil req), fun hl => absurd hm hl.1⟩
  rw [if_neg (fun h => hm (hmax.mp h)), and_iff_right hm]
  by_cases hign : (req.ignoreEos && P.disabled) = true
  · rw [if_pos hign, if_pos hign, hf.addOneReqIgnoreEos idle.hybrid idle.chunk_page, hcache,
      idle.unlocked]
    have hnew := c.remainingNewTokens_nonneg req.toGenLengths
    have hup := roundUp_lt c.pageSize_pos req.candExtendInputLen
    rw [hcache]
    linarith
  rw [if_neg hign, if_neg hign]
  have htotal : ¬ ((req.candExtendInputLen + c.remainingNewTokens req.toGenLengths + c.pageSize : Int) : ℚ) ≥
      a.remTotalTokens c P := by
    rw [hf.remTotalTokens, ge_iff_le, cast_le, hcache]
    exact not_le.mpr hfull
  obtain ⟨l₀, h₀, hl₀⟩ := idle.openLimit_unlocked
  have hlimit : openLimit c P req chunk (P.swaSize (P.incLockRef s req.lastNode).1) l₀ =
      openLimit c P req chunk (P.swaSize (P.incLockRef s req.lastNode).1) chunk := by
    rw [openLimit, openLimit]
    by_cases hneed : windowNeed c P req (roundUp c.pageSize req.candExtendInputLen) chunk <
        P.swaSize (P.incLockRef s req.lastNode).1
    · rw [if_pos hneed, if_pos hneed, hl₀ (hneed.trans_le (idle.lock_swa.trans_eq idle.unlocked))]
    · rw [if_neg hneed, if_neg hneed]
  have hgate : a.swaGate c P req (roundUp c.pageSize req.candExtendInputLen) a.remChunkTokens =
      some (some l₀) := by
    rw [hf.remChunkTokens, hf.swaGate idle.hybrid idle.no_host_hit.2, hcache, idle.unlocked, h₀,
      map_some]
  have hlocked : (a.locked P req.lastNode).Fresh chunk := hf.withCache _
  have hlockedCache : (a.locked P req.lastNode).cache = (P.incLockRef s req.lastNode).1 := by
    rw [locked, hcache]
  simp only [idle.no_host_hit.1, Nat.cast_zero, sub_zero, ceilPagedTokens_eq,
    if_neg htotal, hgate, hf.inputStops, Bool.false_eq_true, if_false, admitsPage_some,
    canRunList_withLockNode]
  rw [hlocked.addUnderLock idle.hybrid idle.no_host_hit (hlockedCache ▸ idle.full), hlockedCache,
    hlimit]

/-! A pool of eleven tokens, two windows of four and three pages of one, over a tree that caches one
window.  The next request shares the cached window and has forty tokens to prefill, nine at a time.
Its budget is ten: five tokens beyond the window, the window and a page.  That fits the pool, so the
escape hatch stays shut; but its own lock takes four of the eleven. -/

/-- The tree with the free tokens of the two pools. -/
structure UnifiedPool where
  core : UnifiedTreeCore
  fullFree : Int
  swaFree : Int

/-- The tokens of a component on unlocked nodes. -/
def UnifiedPool.evictable (s : UnifiedPool) (ct : ComponentType) : Int :=
  s.core.tree.total fun _ a =>
    if (a.component ct).lockRef = 0 then (((a.component ct).value.getD []).length : Int) else 0

/-- The adder's view of the unified tree.  Both lock operations succeed on the nodes it locks. -/
def unifiedPort (k : CoreConfig) (sizeSwa : Nat) : TreePort UnifiedPool NodeId where
  Receipt := LockReceipt
  disabled := false
  incLockRef s n := match UnifiedTreeCore.incLockRef k s.core n [] with
    | some (core, r) => ({ s with core := core }, r)
    | none => (s, {})
  decLockRef s n r := match UnifiedTreeCore.decLockRef k s.core n r false with
    | some core => { s with core := core }
    | none => s
  availableSize s := s.fullFree
  evictableSize s := s.evictable .full
  swaAvailableSize s := s.swaFree
  swaEvictableSize s := s.evictable .swa
  slidingWindowSize := k.slidingWindowSize
  sizeSwa := sizeSwa

def windowCore : CoreConfig where
  pageSize := 1
  pageSize_pos := Nat.one_pos
  hasSwa := true
  hasMamba := false
  slidingWindowSize := 4
  window_pos := by decide

def windowKey : RadixKey := ⟨[1, 2, 3, 4], none, none, false, none⟩

/-- One window, inserted with its sliding-window slots. -/
def windowTree : Option UnifiedTreeCore := do
  let (core, node) ← UnifiedTreeCore.addNewNode windowCore (.reset windowCore) 0 windowKey [1, 2, 3, 4]
  core.setComponentDeviceValue node .swa [1, 2, 3, 4]

def windowPool : UnifiedPool := ⟨windowTree.getD (.reset windowCore), 100, 7⟩

/-- Forty-four tokens, of which the first four are cached. -/
def longReq : Req NodeId := ⟨⟨false, 0, 0, 44⟩, 44, 4, by decide, 0, 0, 1⟩

def proceed : Answers UnifiedPool NodeId := ⟨true, fun _ => false, fun s => ⟨s, 0, 1⟩⟩

theorem windowPool_idle (hchunk : 1 ≤ chunk) :
    Idle windowAdder (unifiedPort windowCore 11) windowPool longReq 1000 chunk where
  hybrid := rfl
  running := rfl
  chunk_page := hchunk
  input_page := by decide
  unlocked := by decide +kernel
  windows := by decide
  full := by decide +kernel
  no_host_hit := ⟨rfl, rfl⟩
  lock_full := by decide +kernel
  lock_swa := by decide +kernel

/-- The request is refused, and the pool is what it was. -/
theorem addOneReq_starves :
    Idle windowAdder (unifiedPort windowCore 11) windowPool longReq 1000 9 ∧ ∃ b,
      (new windowAdder windowPool 1000 (some 9) 0).addOneReq windowAdder
        (unifiedPort windowCore 11) longReq none proceed = some (.noToken, b) ∧
      b.canRunList = [] ∧ (unifiedPort windowCore 11).swaSize b.cache = 11 := by
  have h : ((new windowAdder windowPool 1000 (some 9) 0).addOneReq windowAdder
      (unifiedPort windowCore 11) longReq none proceed).map (fun r =>
        (r.1, r.2.canRunList, (unifiedPort windowCore 11).swaSize r.2.cache)) =
      some (.noToken, [], 11) := by decide +kernel
  obtain ⟨⟨res, b⟩, hb, heq⟩ := map_eq_some_iff.mp h
  obtain ⟨rfl, hlist, hsize⟩ : res = .noToken ∧ _ ∧ _ := by simpa using heq
  exact ⟨windowPool_idle (by decide), b, hb, hlist, hsize⟩

theorem addOneReq_admits_page_iff_short_chunk :
    CanAdmit windowAdder (unifiedPort windowCore 11) windowPool longReq 4 none proceed ∧
      AdmitsPage windowAdder longReq ((new windowAdder windowPool 1000 (some 4) 0).addOneReq
        windowAdder (unifiedPort windowCore 11) longReq none proceed) := by
  have hcan : CanAdmit windowAdder (unifiedPort windowCore 11) windowPool longReq 4 none proceed :=
    ⟨by decide, rfl, 4, by decide +kernel, .inr (by change ((1 : Nat) : Int) ≤ 4; decide)⟩
  exact ⟨hcan, (addOneReq_admits_page_iff (windowPool_idle (by decide)) none proceed).mpr hcan⟩

end SglangRuntime.Admission
