import Mathlib.Data.List.Forall2
import Mathlib.Algebra.Order.Ring.Int
import Mathlib.Algebra.Order.Group.Unbundled.Int

/-!
# Releasing what the sliding window has left

`free_swa_out_of_window_slots` gives back the SWA slots of a request that lie before the window.
Positions of the request's row are what it hands to `free_swa`, as one range a call; the frontier
`swa_evicted_seqlen` stays with the request between calls.

* `freeSwaOutOfWindowSlots_safe`, one call: the range is page aligned, begins at the frontier and
  ends before the window and the retained checkpoint.
* `evictCalls_safe`, any sequence of calls: the ranges ascend and the frontier never goes back.
-/

namespace SglangRuntime.WindowEviction

open List

structure Config where
  slidingWindowSize : Int
  pageSize : Nat
  isChunkCache : Bool
  pageSize_pos : 0 < pageSize

/-- What a call reads of the request and of the caller, besides the frontier. -/
structure Call where
  preLen : Int
  cacheProtectedLen : Int
  swaEvictFloor : Int
  retainFloor : Option Int

/-- `kv` holds `swa_evicted_seqlen`; `freed` is the range of positions handed to `free_swa`. -/
structure Outcome where
  kv : Option Int
  freed : Option (Int × Int)
  deriving DecidableEq

variable (c : Config)

def Call.evictFloor (r : Call) : Int :=
  let evictFloor := max r.cacheProtectedLen r.swaEvictFloor
  if 1 < c.pageSize ∧ r.cacheProtectedLen < evictFloor then
    -(-evictFloor / c.pageSize) * c.pageSize
  else evictFloor

def Call.evictThreshold (r : Call) : Int :=
  if c.isChunkCache then r.preLen - c.slidingWindowSize
  else
    let evictThreshold := r.preLen - max c.slidingWindowSize c.pageSize
    match r.retainFloor with
    | some retainFloor => min evictThreshold retainFloor
    | none => evictThreshold

def freeSwaOutOfWindowSlots (r : Call) : Option Int → Option Outcome
  | none => some ⟨none, none⟩
  | some evicted =>
    if r.cacheProtectedLen % c.pageSize ≠ 0 then none
    else
      let evicted := max evicted (r.evictFloor c)
      let new := max evicted (r.evictThreshold c)
      let new := if 1 < c.pageSize then new / c.pageSize * c.pageSize else new
      some (if evicted < new then ⟨some new, some (evicted, new)⟩ else ⟨some evicted, none⟩)

/-- Calls on one request, one after another. -/
def evictCalls : List Call → Option Int → Option (List Outcome)
  | [], _ => some []
  | r :: calls, kv => do
    let o ← freeSwaOutOfWindowSlots c r kv
    let rest ← evictCalls calls o.kv
    some (o :: rest)

variable {c} {r : Call}

/-- What may be freed by a call: nothing that is protected, nothing that a later step reads. -/
structure Releasable (c : Config) (r : Call) (lo hi : Int) : Prop where
  aligned : (c.pageSize : Int) ∣ lo ∧ (c.pageSize : Int) ∣ hi
  unprotected : r.cacheProtectedLen ≤ lo ∧ r.swaEvictFloor ≤ lo
  window : hi ≤ r.preLen - c.slidingWindowSize
  page : c.isChunkCache = false → hi ≤ r.preLen - max c.slidingWindowSize c.pageSize
  retained : c.isChunkCache = false → ∀ f ∈ r.retainFloor, hi ≤ f

theorem Call.le_evictFloor (r : Call) :
    max r.cacheProtectedLen r.swaEvictFloor ≤ r.evictFloor c := by
  rw [evictFloor]
  split_ifs
  · have := Int.ediv_mul_le (-max r.cacheProtectedLen r.swaEvictFloor)
      (Int.natCast_pos.mpr c.pageSize_pos).ne'
    rw [neg_mul]
    omega
  · exact le_rfl

theorem Call.dvd_evictFloor (hr : (c.pageSize : Int) ∣ r.cacheProtectedLen) :
    (c.pageSize : Int) ∣ r.evictFloor c := by
  rw [evictFloor]
  split_ifs with h
  · exact dvd_mul_left _ _
  rcases not_and_or.mp h with h | h
  · have : c.pageSize = 1 := by have := c.pageSize_pos; omega
    rw [this]
    exact one_dvd _
  · rwa [max_eq_left (by omega)]

theorem Call.evictThreshold_le (r : Call) :
    r.evictThreshold c ≤ r.preLen - c.slidingWindowSize ∧ (c.isChunkCache = false →
      r.evictThreshold c ≤ r.preLen - max c.slidingWindowSize c.pageSize ∧
      ∀ f ∈ r.retainFloor, r.evictThreshold c ≤ f) := by
  rw [evictThreshold]
  split_ifs with hc
  · exact ⟨le_rfl, fun h => absurd (hc.symm.trans h) nofun⟩
  rcases r.retainFloor with - | f
  · exact ⟨by simp only; omega, fun _ => ⟨le_rfl, nofun⟩⟩
  · refine ⟨(min_le_left _ _).trans (by omega), fun _ => ⟨min_le_left _ _, ?_⟩⟩
    rintro _ ⟨⟩
    exact min_le_right _ _

/-- The step: from an aligned frontier, a call frees from there on, if it frees anything. -/
theorem freeSwaOutOfWindowSlots_safe {evicted : Int}
    (he : (c.pageSize : Int) ∣ evicted) (hr : (c.pageSize : Int) ∣ r.cacheProtectedLen) :
    ∃ new freed, freeSwaOutOfWindowSlots c r (some evicted) = some ⟨some new, freed⟩ ∧
      evicted ≤ new ∧ (c.pageSize : Int) ∣ new ∧
      ∀ lo hi, freed = some (lo, hi) → evicted ≤ lo ∧ lo < hi ∧ hi = new ∧ Releasable c r lo hi := by
  have hfloor := r.le_evictFloor (c := c)
  have hstart : (c.pageSize : Int) ∣ max evicted (r.evictFloor c) := by
    rcases max_choice evicted (r.evictFloor c) with h | h <;> rw [h]
    exacts [he, Call.dvd_evictFloor hr]
  have hround : ∀ n : Int, (if 1 < c.pageSize then n / c.pageSize * c.pageSize else n) ≤ n ∧
      (c.pageSize : Int) ∣ if 1 < c.pageSize then n / c.pageSize * c.pageSize else n := by
    intro n
    split_ifs with h
    · exact ⟨Int.ediv_mul_le n (Int.natCast_pos.mpr c.pageSize_pos).ne', dvd_mul_left _ _⟩
    · have : c.pageSize = 1 := by have := c.pageSize_pos; omega
      exact ⟨le_rfl, this ▸ one_dvd _⟩
  obtain ⟨hle, hdvd⟩ := hround (max (max evicted (r.evictFloor c)) (r.evictThreshold c))
  simp only [freeSwaOutOfWindowSlots, Int.emod_eq_zero_of_dvd hr, ne_eq, not_true_eq_false, if_false]
  generalize (if 1 < c.pageSize then _ else _ : Int) = new at hle hdvd ⊢
  split_ifs with hlt
  · refine ⟨_, _, rfl, (le_max_left _ _).trans hlt.le, hdvd, ?_⟩
    rintro _ _ ⟨⟩
    -- what is past the frontier comes from the threshold
    have hnew := (le_max_iff.mp hle).resolve_left (not_le.mpr hlt)
    obtain ⟨hw, hradix⟩ := r.evictThreshold_le (c := c)
    exact ⟨le_max_left _ _, hlt, rfl, ⟨hstart, hdvd⟩, by omega, hnew.trans hw,
      fun h => hnew.trans (hradix h).1, fun h f hf => hnew.trans ((hradix h).2 f hf)⟩
  · exact ⟨_, _, rfl, le_max_left _ _, hstart, nofun⟩

/-- **Calls on one request, in any number**, free page-aligned ranges that ascend without overlap,
each within what its call may free, and `swa_evicted_seqlen` never decreases. -/
theorem evictCalls_safe {evicted : Int} (he : (c.pageSize : Int) ∣ evicted) (calls : List Call)
    (hcalls : ∀ r ∈ calls, (c.pageSize : Int) ∣ r.cacheProtectedLen) :
    ∃ outcomes frontiers, evictCalls c calls (some evicted) = some outcomes ∧
      outcomes.map (·.kv) = frontiers.map some ∧ (evicted :: frontiers).Pairwise (· ≤ ·) ∧
      ((evicted, evicted) :: outcomes.filterMap (·.freed)).Pairwise (fun a b => a.2 ≤ b.1) ∧
      List.Forall₂ (fun r o => ∀ lo hi, o.freed = some (lo, hi) → lo < hi ∧ Releasable c r lo hi)
        calls outcomes := by
  induction calls generalizing evicted with
  | nil => exact ⟨[], [], rfl, rfl, by simp, by simp, .nil⟩
  | cons r calls ih =>
    obtain ⟨hr, hcalls⟩ := forall_mem_cons.mp hcalls
    obtain ⟨new, freed, hstep, hle, hdvd, hfreed⟩ := freeSwaOutOfWindowSlots_safe he hr
    obtain ⟨outcomes, frontiers, hrun, hkv, hmono, hasc, hall⟩ := ih hdvd hcalls
    have hge := pairwise_cons.mp hasc
    refine ⟨⟨some new, freed⟩ :: outcomes, new :: frontiers, by simp [evictCalls, hstep, hrun],
      by simp [hkv], ?_, ?_, .cons (fun lo hi e => (hfreed lo hi e).2.imp_right (·.2)) hall⟩
    · refine pairwise_cons.mpr ⟨forall_mem_cons.mpr ⟨hle, fun x hx => ?_⟩, hmono⟩
      exact hle.trans ((pairwise_cons.mp hmono).1 x hx)
    -- the ranges of the later calls begin at or after the new frontier
    have hlater : ∀ x ∈ outcomes.filterMap (·.freed), evicted ≤ x.1 := fun x hx =>
      hle.trans (hge.1 x hx)
    rcases freed with - | ⟨lo, hi⟩
    · exact pairwise_cons.mpr ⟨hlater, hge.2⟩
    · obtain ⟨hlo, -, rfl, -⟩ := hfreed lo hi rfl
      exact pairwise_cons.mpr ⟨forall_mem_cons.mpr ⟨hlo, hlater⟩,
        pairwise_cons.mpr hge⟩

/-- Pages of 4, a window of 6: the third call is held back by the retained checkpoint. -/
theorem evictCalls_safe_paged : evictCalls ⟨6, 4, false, by decide⟩
        [⟨21, 4, 0, none⟩, ⟨22, 4, 0, none⟩, ⟨40, 4, 0, some 17⟩] (some 0) =
      some [⟨some 12, some (4, 12)⟩, ⟨some 16, some (12, 16)⟩, ⟨some 16, none⟩] ∧
    [(0, 0), (4, 12), (12, 16)].Pairwise (fun a b : Int × Int => a.2 ≤ b.1) := by
  obtain ⟨outcomes, -, h, -, -, hasc, -⟩ := evictCalls_safe (c := ⟨6, 4, false, by decide⟩)
    (Int.dvd_zero _) [⟨21, 4, 0, none⟩, ⟨22, 4, 0, none⟩, ⟨40, 4, 0, some 17⟩] (by decide)
  cases h
  exact ⟨by decide, hasc⟩

end SglangRuntime.WindowEviction
