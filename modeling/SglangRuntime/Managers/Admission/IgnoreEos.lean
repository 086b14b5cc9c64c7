import SglangRuntime.Managers.Admission.Model
import Mathlib.Data.List.Sort
import Mathlib.Tactic.Ring

/-!
# Managers — the decode simulation of requests that ignore EOS

`add_one_req_ignore_eos` keeps the requests of a pass in `req_states` and admits a request when all
of them can be decoded to their end.  What that means is `RunsToCompletion`; the loop of the source
(`decodeTokensFit`) implies it in whatever order the states are kept, because moving a request with
fewer tokens left to the front only helps (`Fits.pull`).

The order itself is not kept: a request with more tokens left than every other is inserted before
the last state.
-/

namespace SglangRuntime.Admission

open Foundation List
open Scheduling (AddReqResult)

/-- By tokens left. -/
def SortedStates (states : List ReqState) : Prop := states.Pairwise fun x y => x.1 ≤ y.1

instance (states : List ReqState) : Decidable (SortedStates states) :=
  inferInstanceAs (Decidable (List.Pairwise _ states))

/-- The requests decode one token each at a time, and the first is the next to complete.  Just
before, the reserve of every request still running is exceeded; it then returns what it occupied and
what it has decoded. -/
def RunsToCompletion (free now : ℚ) : List ReqState → Prop
  | [] => True
  | (tokensLeft, tokensOccupied) :: rest =>
    let before := free - (tokensLeft - now) * (rest.length + 1 : Nat)
    (ignoreEosReserveTokens * (rest.length + 1) : Nat) < before ∧
      RunsToCompletion (before + (tokensOccupied + tokensLeft)) tokensLeft rest

/-- The same in closed form: what the requests still running have decoded is their number times the
tokens left of the next. -/
def Fits (free : ℚ) : List ReqState → Prop
  | [] => True
  | x :: rest => (x.1 + 1) * (rest.length + 1 : Nat) < free ∧ Fits (free + x.2) rest

theorem runsToCompletion_iff_fits (states : List ReqState) (free now : ℚ) :
    RunsToCompletion free now states ↔ Fits (free + now * states.length) states := by
  induction states generalizing free now with
  | nil => exact Iff.rfl
  | cons x rest ih =>
    rw [RunsToCompletion, Fits, ih, ignoreEosReserveTokens, length_cons]
    push_cast
    refine and_congr ?_ (iff_of_eq (congrArg (Fits · rest) (by ring)))
    constructor <;> intro h <;> linarith

theorem Fits.pull {x : ReqState} {l₁ l₂ : List ReqState} {free : ℚ}
    (hpos : ∀ y ∈ l₁, 0 < y.1) (hle : ∀ y ∈ l₁, x.1 ≤ y.1) (h : Fits free (l₁ ++ x :: l₂)) :
    Fits free (x :: (l₁ ++ l₂)) := by
  induction l₁ generalizing free with
  | nil => exact h
  | cons y l₁ ih =>
    obtain ⟨hy, h⟩ : _ ∧ Fits (free + y.2) (l₁ ++ x :: l₂) := h
    obtain ⟨hx, h⟩ := ih (fun z hz => hpos z (mem_cons_of_mem y hz))
      (fun z hz => hle z (mem_cons_of_mem y hz)) h
    have hxy := hle y mem_cons_self
    have hpy := hpos y mem_cons_self
    simp only [append_eq, length_append, length_cons] at hy
    push_cast at hy
    have hn : (0 : ℚ) ≤ l₁.length + l₂.length + 1 := by positivity
    have hmul : x.1 * (l₁.length + l₂.length + 1) ≤ y.1 * (l₁.length + l₂.length + 1) :=
      mul_le_mul_of_nonneg_right hxy hn
    -- `y` has one request less beside it, and more is free
    refine ⟨?_, ?_, by rwa [add_right_comm]⟩
    · rw [cons_append, length_cons, length_append]
      push_cast
      linarith
    · rw [append_eq, length_append]
      push_cast
      linarith

/-- **The order does not matter**: what fits in some order fits in that of the tokens left. -/
theorem Fits.sorted {l m : List ReqState} {free : ℚ} (hpos : ∀ y ∈ l, 0 < y.1) (h : Fits free l)
    (hperm : l.Perm m) (hm : SortedStates m) : Fits free m := by
  induction m generalizing l free with
  | nil => trivial
  | cons x m ih =>
    obtain ⟨hx, hm⟩ := pairwise_cons.mp hm
    obtain ⟨l₁, l₂, rfl⟩ := append_of_mem (hperm.mem_iff.mpr mem_cons_self)
    have hrest : (l₁ ++ l₂).Perm m := (perm_middle.symm.trans hperm).cons_inv
    have hmem : ∀ y ∈ l₁, y ∈ l₁ ++ l₂ := fun y hy => mem_append_left l₂ hy
    have hall : ∀ y ∈ l₁ ++ l₂, 0 < y.1 := fun y hy =>
      hpos y (perm_middle.mem_iff.mpr (mem_cons_of_mem x hy))
    obtain ⟨hfirst, h⟩ := h.pull (fun y hy => hall y (hmem y hy))
      (fun y hy => hx y (hrest.mem_iff.mp (hmem y hy)))
    exact ⟨by rwa [← hrest.length_eq], ih hall h hrest hm⟩

namespace AdderConfig

variable {c : AdderConfig} {states : List ReqState}

theorem decodeTokensFit_fits {curRemTokens : Int} {tokensFreed : Nat}
    (h : c.decodeTokensFit curRemTokens states tokensFreed) :
    Fits ((curRemTokens + tokensFreed : Int) : ℚ) states := by
  induction states generalizing tokensFreed with
  | nil => trivial
  | cons x rest ih =>
    rw [decodeTokensFit] at h
    split_ifs at h with hle
    have hfits := ih h
    push_cast [ignoreEosReserveTokens] at hle hfits ⊢
    refine ⟨?_, by rwa [← add_assoc] at hfits⟩
    -- both roundings compare with an integer
    by_contra hnot
    refine hle (c.rounding.round_le (n := (1 * (rest.length + 1) : Int)) ?_ |>.trans_eq (by simp))
    have hround := c.rounding.le_round (x := x.1 * (rest.length + 1))
      (n := curRemTokens + tokensFreed - (rest.length + 1)) (by push_cast at hnot ⊢; linarith)
    push_cast at hround ⊢
    linarith

theorem reqStateOf_pos {r : GenLengths} {x : ReqState} (h : c.reqStateOf r = some x) : 0 < x.1 := by
  simp only [reqStateOf] at h
  split_ifs at h with hle
  cases h
  exact not_le.mp hle

theorem insertReqState_perm (states : List ReqState) (r : GenLengths) :
    (c.insertReqState states r).Perm ((c.reqStateOf r).toList ++ states) := by
  rw [insertReqState]
  rcases c.reqStateOf r with - | x
  · exact .refl states
  refine perm_insertIdx x states ?_
  rcases hidx : states.findIdx? fun y => decide (x.1 ≤ y.1) with - | i
  · rw [hidx, Option.getD_none]
    exact Nat.sub_le _ _
  · rw [hidx, Option.getD_some]
    exact (findIdx?_eq_some_iff_getElem.mp hidx).1.le

/-- Where the loop of the insertion ends at a state that is not smaller, it inserts in order. -/
theorem insertIdx_findIdx (x : ReqState) (h : states = [] ∨ ∃ y ∈ states, x.1 ≤ y.1) :
    states.insertIdx ((states.findIdx? fun y => decide (x.1 ≤ y.1)).getD (states.length - 1)) x =
      states.orderedInsert (fun x y => x.1 ≤ y.1) x := by
  induction states with
  | nil => rfl
  | cons y states ih =>
    by_cases hxy : x.1 ≤ y.1
    · simp [findIdx?_cons, hxy]
    have hex : ∃ z ∈ states, x.1 ≤ z.1 := by simpa [hxy] using h
    obtain ⟨i, hi⟩ : ∃ i, states.findIdx? (fun z => decide (x.1 ≤ z.1)) = some i := by
      rw [← Option.isSome_iff_exists, findIdx?_isSome, any_eq_true]
      simpa using hex
    have hih := ih (.inr hex)
    rw [hi, Option.getD_some] at hih
    simp [findIdx?_cons, hxy, hi, hih]

end AdderConfig

namespace PrefillAdder

variable {σ ν : Type} {c : AdderConfig} {P : TreePort σ ν}

section

variable (c : AdderConfig)

section

variable (a : PrefillAdder σ)

/-- What the pass has to decode: the running and the admitted requests with tokens left. -/
def decoding : List ReqState :=
  (c.runningBatch.map (·.toGenLengths) ++ a.canRunList.map (·.toGenLengths)).filterMap c.reqStateOf

/-- Some state has at least as many tokens left as the request. -/
def InsertsInOrder (req : Req ν) : Prop :=
  ∀ states, a.reqStates = some states → ∀ x, c.reqStateOf req.toGenLengths = some x →
    states = [] ∨ ∃ y ∈ states, x.1 ≤ y.1

/-- The states are those of the pass. -/
def Tracks : Prop :=
  ∀ states, a.reqStates = some states → states.Perm (a.decoding c)

end

end

variable {a₀ a a' : PrefillAdder σ} {req : Req ν} {ans : Answers σ ν} {res : AddReqResult}

theorem Tracks.consider (ha : a.Tracks c) (req : Req ν) : (a.considerReqState c req).Perm
      ((c.reqStateOf req.toGenLengths).toList ++ a.decoding c) := by
  rw [considerReqState]
  rcases hstates : a.reqStates with - | states
  · refine (perm_insertionSort _ _).trans (List.Perm.of_eq ?_)
    rw [append_assoc, singleton_append, filterMap_cons, decoding]
    rcases c.reqStateOf req.toGenLengths with - | x <;> rfl
  · exact (c.insertReqState_perm states _).trans ((ha states hstates).append_left _)

theorem Tracks.consider_admitted (ha : a.Tracks c) {len : Int}
    (h : a'.canRunList = a.canRunList ++ [⟨req.toGenLengths, req.prefixLen, len⟩]) :
    (a.considerReqState c req).Perm (a'.decoding c) := by
  refine (ha.consider req).trans (perm_append_comm.trans (List.Perm.of_eq ?_))
  rw [decoding, decoding, h, map_append, ← append_assoc, filterMap_append]
  rcases hx : c.reqStateOf req.toGenLengths with - | x <;> simp [hx]

theorem considerReqState_sorted (hs : ∀ states, a.reqStates = some states → SortedStates states)
    (hin : a.InsertsInOrder c req) : SortedStates (a.considerReqState c req) := by
  rw [considerReqState]
  rcases hstates : a.reqStates with - | states
  · exact pairwise_insertionSort _ _
  have hsorted := hs states hstates
  simp only [AdderConfig.insertReqState]
  rcases hx : c.reqStateOf req.toGenLengths with - | x
  · exact hsorted
  · simp only [AdderConfig.insertIdx_findIdx x (hin states hstates x hx)]
    exact List.Pairwise.orderedInsert x states hsorted

/-- A call of `add_one_req_ignore_eos` stops before the states, or it considers the request and then
refuses or admits it. -/
theorem addOneReqIgnoreEos_cases (h : a.addOneReqIgnoreEos c P req ans = some (res, a')) :
    (a'.canRunList = a.canRunList ∧ res ≠ .continueAdding ∧
      (a'.reqStates = a.reqStates ∨ a'.reqStates = some (a.considerReqState c req))) ∨
    (a'.reqStates = some (a.considerReqState c req) ∧
      (c.isHybridSwa = false → c.decodeTokensFit
        (a.curRemTokens P - c.ceilPagedTokens req.candExtendInputLen) (a.considerReqState c req) 0) ∧
      ∃ len, a'.canRunList = a.canRunList ++ [⟨req.toGenLengths, req.prefixLen, len⟩]) := by
  simp only [addOneReqIgnoreEos] at h
  split_ifs at h with hfit hswa hdec hdel hwhole htile
  · cases h; exact .inl ⟨rfl, nofun, .inl rfl⟩
  · cases h; exact .inl ⟨rfl, nofun, .inl rfl⟩
  · cases h; exact .inl ⟨rfl, nofun, .inr rfl⟩
  · cases h; exact .inl ⟨rfl, nofun, .inr rfl⟩
  · cases h; exact .inl ⟨rfl, nofun, .inr rfl⟩
  · cases h
    refine .inr ⟨rfl, fun hh => ?_, _, rfl⟩
    simpa [hh, curRemTokens] using hdec
  · obtain ⟨len, -, h⟩ := Option.bind_eq_some_iff.mp h
    rw [addChunkIgnoreEos] at h
    split_ifs at h with h0 htile
    · cases h; exact .inl ⟨rfl, nofun, .inr rfl⟩
    · cases h; exact .inl ⟨rfl, nofun, .inr rfl⟩
    · cases h
      refine .inr ⟨rfl, fun hh => ?_, _, rfl⟩
      simpa [hh, curRemTokens] using hdec

/-- The calls of a pass, with the adder each was made on; the scheduler goes on while they return
`CONTINUE`. -/
inductive IgnoreEosPass (c : AdderConfig) (P : TreePort σ ν) (a₀ : PrefillAdder σ) :
    List (PrefillAdder σ × Req ν) → PrefillAdder σ → Prop
  | start : IgnoreEosPass c P a₀ [] a₀
  | call {calls : List (PrefillAdder σ × Req ν)} {a a' : PrefillAdder σ} {req : Req ν}
      {ans : Answers σ ν} (hrun : IgnoreEosPass c P a₀ calls a)
      (h : a.addOneReqIgnoreEos c P req ans = some (.continueAdding, a')) :
      IgnoreEosPass c P a₀ ((a, req) :: calls) a'

variable {calls : List (PrefillAdder σ × Req ν)}

theorem IgnoreEosPass.tracks (h0 : a₀.reqStates = none) (hrun : IgnoreEosPass c P a₀ calls a) :
    a.Tracks c := by
  induction hrun with
  | start => exact fun states hs => by simp [h0] at hs
  | @call _ a a' req _ _ h ih =>
    obtain ⟨-, hne, -⟩ | ⟨hst, -, len, hrun⟩ := addOneReqIgnoreEos_cases h
    · exact absurd rfl hne
    intro states hs
    obtain rfl : a.considerReqState c req = states := Option.some.inj (hst.symm.trans hs)
    exact ih.consider_admitted hrun

theorem addOneReqIgnoreEos_sorted (h : a.addOneReqIgnoreEos c P req ans = some (res, a'))
    (hs : ∀ states, a.reqStates = some states → SortedStates states)
    (hin : a.InsertsInOrder c req) :
    ∀ states, a'.reqStates = some states → SortedStates states := by
  intro states hst
  have hnew : a'.reqStates = some (a.considerReqState c req) → SortedStates states := fun heq =>
    Option.some.inj (heq.symm.trans hst) ▸ considerReqState_sorted hs hin
  obtain ⟨-, -, heq | heq⟩ | ⟨heq, -⟩ := addOneReqIgnoreEos_cases h
  · exact hs states (heq.symm.trans hst)
  · exact hnew heq
  · exact hnew heq

theorem IgnoreEosPass.sorted (h0 : a₀.reqStates = none) (hrun : IgnoreEosPass c P a₀ calls a)
    (hin : ∀ p ∈ calls, p.1.InsertsInOrder c p.2) :
    ∀ states, a.reqStates = some states → SortedStates states := by
  induction hrun with
  | start => exact fun states hs => by simp [h0] at hs
  | call hrun h ih =>
    exact addOneReqIgnoreEos_sorted h (ih fun p hp => hin p (mem_cons_of_mem _ hp))
      (hin _ mem_cons_self)

/-- **The admission of a request that ignores EOS.**  `req_states` stays sorted while every request
finds a state it does not exceed; and a request is admitted only if everything there is to decode
runs to completion, in any order by tokens left. -/
theorem ignoreEos_simulation (h0 : a₀.reqStates = none) (hrun : IgnoreEosPass c P a₀ calls a)
    (h : a.addOneReqIgnoreEos c P req ans = some (res, a')) :
    ((∀ p ∈ (a, req) :: calls, p.1.InsertsInOrder c p.2) →
      ∀ states, a'.reqStates = some states → SortedStates states) ∧
    (c.isHybridSwa = false → a'.canRunList ≠ a.canRunList → ∀ states,
      states.Perm (a'.decoding c) → SortedStates states →
      RunsToCompletion ((a.curRemTokens P - c.ceilPagedTokens req.candExtendInputLen : Int) : ℚ) 0
        states) := by
  refine ⟨fun hin => addOneReqIgnoreEos_sorted h
    (hrun.sorted h0 fun p hp => hin p (mem_cons_of_mem _ hp)) (hin _ mem_cons_self), ?_⟩
  intro hswa hadmitted states hperm hsorted
  obtain ⟨hsame, -⟩ | ⟨-, hfit, len, hlist⟩ := addOneReqIgnoreEos_cases h
  · exact absurd hsame hadmitted
  have hstates : (a.considerReqState c req).Perm states :=
    ((hrun.tracks h0).consider_admitted hlist).trans hperm.symm
  have hpos : ∀ y ∈ a.considerReqState c req, 0 < y.1 := by
    intro y hy
    obtain ⟨r, -, hr⟩ := mem_filterMap.mp (hperm.mem_iff.mp (hstates.mem_iff.mp hy))
    exact AdderConfig.reqStateOf_pos hr
  rw [runsToCompletion_iff_fits, zero_mul, add_zero]
  have hfits := AdderConfig.decodeTokensFit_fits (hfit hswa)
  rw [Nat.cast_zero, add_zero] at hfits
  exact hfits.sorted hpos hstates hsorted

end PrefillAdder

/-! ### A disabled cache with a hundred tokens -/

def plainAdder : AdderConfig :=
  ⟨1, Nat.one_pos, false, 4096, 1, ratio_one_nonneg, [], none, false, .exact⟩

def plainPort : TreePort Unit Unit where
  Receipt := Unit
  disabled := true
  incLockRef _ _ := ((), ())
  decLockRef _ _ _ := ()
  availableSize _ := 100
  evictableSize _ := 0
  swaAvailableSize _ := 0
  swaEvictableSize _ := 0
  slidingWindowSize := 0
  sizeSwa := 0

/-- A prompt of one token. -/
def fixedLength (maxNewTokens : Nat) : Req Unit :=
  ⟨⟨true, maxNewTokens, 0, 1⟩, 1, 0, Nat.zero_le 1, 0, 0, ()⟩

def immediately : Answers Unit Unit := ⟨true, fun _ => false, fun _ => ⟨(), 0, ()⟩⟩

def plainStart : PrefillAdder Unit := .new plainAdder () 1000 (some 1000) 0

def admitLength (a : PrefillAdder Unit) (maxNewTokens : Nat) :
    Option (AddReqResult × PrefillAdder Unit) :=
  a.addOneReqIgnoreEos plainAdder plainPort (fixedLength maxNewTokens) immediately

/-- Five tokens left, then ten: both are admitted, the longer one stands first. -/
theorem reqStates_unsorted :
    ∃ r ∈ admitLength plainStart 5, r.1 = .continueAdding ∧ ∃ r' ∈ admitLength r.2 10,
      r'.2.canRunList.length = 2 ∧ r'.2.reqStates = some [(10, 1), (5, 1)] ∧
      ¬SortedStates [(10, 1), (5, 1)] := by
  decide +kernel

/-- Ten tokens left, then five. -/
theorem ignoreEos_simulation_shorter : ∃ r ∈ admitLength plainStart 10, ∃ r' ∈ admitLength r.2 5,
      (∀ states, r'.2.reqStates = some states → SortedStates states) ∧
      RunsToCompletion 97 0 [(5, 1), (10, 1)] := by
  have hrun : ∃ r ∈ admitLength plainStart 10, r.1 = .continueAdding ∧
      r.2.reqStates = some [(10, 1)] ∧ ∃ r' ∈ admitLength r.2 5,
      (r.2.canRunList.length = 1 ∧ r'.2.canRunList.length = 2) ∧
      r.2.curRemTokens plainPort - plainAdder.ceilPagedTokens (fixedLength 5).candExtendInputLen = 97 ∧
      List.Perm [(5, 1), (10, 1)] (r'.2.decoding plainAdder) := by
    decide +kernel
  obtain ⟨⟨res, a⟩, h, rfl, hst, ⟨res', a'⟩, h', ⟨hlen, hlen'⟩, hrem, hperm⟩ := hrun
  have hin : ∀ p ∈ [(a, fixedLength 5), (plainStart, fixedLength 10)],
      p.1.InsertsInOrder plainAdder p.2 := by
    intro p hp states hs x hx
    obtain rfl | rfl : p = (a, fixedLength 5) ∨ p = (plainStart, fixedLength 10) := by simpa using hp
    · obtain rfl : [(10, 1)] = states := Option.some.inj (hst.symm.trans hs)
      have hfive : plainAdder.reqStateOf (fixedLength 5).toGenLengths = some (5, 1) := by
        decide +kernel
      obtain rfl : (5, 1) = x := Option.some.inj (hfive.symm.trans hx)
      exact .inr ⟨(10, 1), mem_cons_self, by norm_num⟩
    · exact absurd hs nofun
  obtain ⟨hsorted, hcompletes⟩ :=
    PrefillAdder.ignoreEos_simulation (rfl : plainStart.reqStates = none) (.call .start h) h'
  refine ⟨_, h, _, h', hsorted hin, ?_⟩
  have hne : a'.canRunList ≠ a.canRunList := fun heq => by
    rw [heq, hlen] at hlen'
    cases hlen'
  have hruns := hcompletes rfl hne _ hperm (by decide +kernel)
  rwa [hrem] at hruns

end SglangRuntime.Admission
