import Mathlib.Data.List.Find
import Mathlib.Data.Nat.Find
import SglangRuntime.Managers.FinishState

/-!
# Managers — finishing a block of tokens and token by token

One call for a block tests the stop strings in the order of the list, then the stop tokens, then the
length limit; token by token the first position counts.  `acceptBlock_outcome_iff`: the two agree
exactly when no other stop string and no stop token comes before the stop string that the block
reports, within the length limit.  A block in which a stop token precedes a stop string tells them
apart (`eos_before_stopStr`).
-/

namespace SglangRuntime.Finish

open Req List Option

variable {search : Text → Text → Option Bool} {r : Req} {tokens : List TokenId} {s : Text}
  {t : TokenId} {i j n : Nat}

/-- The requests in question: not finished or aborted, no stop patterns; the tokens are in the
vocabulary, and a block ends where the grammar does (`_resolve_spec_v2_tokens`). -/
structure Plain (r : Req) (tokens : List TokenId) : Prop where
  unfinished : r.finishedReason = none
  noLen : r.finishedLen = none
  noAbort : r.toFinish = none
  noRegex : r.samplingParams.stopRegexStrs = []
  grammar : ∀ j, 1 ≤ j → j < tokens.length →
    r.grammarTerminated (r.outputIds ++ tokens.take j) = false
  inRange : ∀ t ∈ tokens, r.outOfRange t = false

/-- The tokens before the last one in a window of one step. -/
def reach (r : Req) : Nat := max r.samplingParams.stopStrMaxLen r.samplingParams.stopRegexMaxLen

/-- The text from `start` on of the first `stop` tokens. -/
def textOf (r : Req) (ids : List TokenId) (start stop : Nat) : Text :=
  r.decode ((ids.take stop).drop start)

/-- The windows are wide enough: a stop string that a token completes lies in the window that ends
with this token. -/
def WideWindows (r : Req) (ids : List TokenId) : Prop :=
  ∀ s ∈ r.samplingParams.stopStrs, ∀ m < ids.length, ∀ start,
    s <:+: textOf r ids start (m + 1) → ¬ s <:+: textOf r ids start m →
    s <:+: textOf r ids (m - reach r) (m + 1)

/-- The stop string is complete after `j` tokens of the block. -/
def MatchedBy (r : Req) (tokens : List TokenId) (s : Text) (j : Nat) : Prop :=
  s <:+: textOf r (r.outputIds ++ tokens) (r.outputIds.length - reach r) (r.outputIds.length + j)

instance (r : Req) (tokens : List TokenId) (s : Text) (j : Nat) : Decidable (MatchedBy r tokens s j) :=
  inferInstanceAs (Decidable (_ <:+: _))

/-- The window of the `j`-th single step shows the stop string. -/
def MatchedAt (r : Req) (tokens : List TokenId) (s : Text) (j : Nat) : Prop :=
  s <:+: textOf r (r.outputIds ++ tokens) (r.outputIds.length + j - 1 - reach r)
    (r.outputIds.length + j)

instance (r : Req) (tokens : List TokenId) (s : Text) (j : Nat) : Decidable (MatchedAt r tokens s j) :=
  inferInstanceAs (Decidable (_ <:+: _))

/-- The `j`-th token of the block is a stop token. -/
def StopTokenAt (r : Req) (tokens : List TokenId) (j : Nat) : Prop :=
  r.samplingParams.ignoreEos = false ∧ ∃ t, tokens[j - 1]? = some t ∧ r.isStopToken t

instance (r : Req) (tokens : List TokenId) (j : Nat) : Decidable (StopTokenAt r tokens j) :=
  match h : tokens[j - 1]? with
  | none => .isFalse fun ⟨_, t, e, _⟩ => nomatch h.symm.trans e
  | some t => decidable_of_iff (r.samplingParams.ignoreEos = false ∧ r.isStopToken t) (by
      simp [StopTokenAt, h])

/-! ### Windows -/

theorem textOf_mono (r : Req) (ids : List TokenId) {a a' b b' : Nat} (ha : a' ≤ a) (hb : b ≤ b') :
    textOf r ids a b <:+: textOf r ids a' b' := by
  have hdrop : (ids.take b).drop a <:+: (ids.take b').drop a' := by
    have h₁ : (ids.take b).drop a <:+ (ids.take b).drop a' := by
      rw [← Nat.add_sub_cancel' ha, ← drop_drop]
      exact drop_suffix _ _
    have h₂ : (ids.take b).drop a' <+: (ids.take b').drop a' := by
      rw [← min_eq_left hb, ← take_take]
      exact ( take_prefix _ _).drop a'
    exact h₁.isInfix.trans h₂.isInfix
  obtain ⟨u, v, e⟩ := hdrop
  refine ⟨r.decode u, r.decode v, ?_⟩
  simp only [textOf, decode, ← flatMap_append, e]

theorem MatchedBy.mono (h : MatchedBy r tokens s i) (hij : i ≤ j) : MatchedBy r tokens s j :=
  h.trans (textOf_mono r _ le_rfl (by omega))

theorem MatchedAt.matchedBy (h : MatchedAt r tokens s j) (hj : 1 ≤ j) : MatchedBy r tokens s j :=
  h.trans (textOf_mono r _ (by omega) le_rfl)

/-- The first step after which a stop string is complete shows it in its own window. -/
theorem matchedAt_of_first (hw : WideWindows r (r.outputIds ++ tokens))
    (hs : s ∈ r.samplingParams.stopStrs) (hj : 1 ≤ j) (hle : j ≤ tokens.length)
    (h : MatchedBy r tokens s j) (hfirst : 1 < j → ¬ MatchedBy r tokens s (j - 1)) :
    MatchedAt r tokens s j := by
  rcases Nat.eq_or_lt_of_le hj with rfl | hlt
  · rw [MatchedAt, Nat.add_sub_cancel]
    exact h
  have hm : r.outputIds.length + j = r.outputIds.length + j - 1 + 1 := by omega
  have hbefore := hfirst hlt
  rw [MatchedBy, ← Nat.add_sub_assoc hj] at hbefore
  rw [MatchedBy, hm] at h
  rw [MatchedAt, hm]
  refine hw s hs _ ?_ _ h hbefore
  rw [length_append]
  omega

/-- The least step at which something holds. -/
theorem exists_least {P : Nat → Prop} (h : P (i + 1)) :
    ∃ l ≤ i, P (l + 1) ∧ ∀ j, 1 ≤ j → j ≤ l → ¬ P j := by
  classical
  have hex : ∃ l, P (l + 1) := ⟨i, h⟩
  refine ⟨Nat.find hex, Nat.find_min' hex h, Nat.find_spec hex, fun j hj hle hP => ?_⟩
  obtain ⟨m, rfl⟩ : ∃ m, j = m + 1 := ⟨j - 1, by omega⟩
  exact Nat.find_min hex hle hP

/-- A search that begins behind `a` and leaves out its last position. -/
theorem find?_range'_first {p : Nat → Bool} {a m : Nat} (hi : 1 ≤ i) (him : i ≤ m) (hp : p (a + i))
    (hfirst : ∀ j, 1 ≤ j → j < i → ¬ p (a + j)) :
    (List.range' (a + 1) (a + m - (a + 1))).find? p = if i < m then some (a + i) else none := by
  have hno : ∀ n, a + 1 ≤ n → n < a + i → !p n := by
    intro n hn hlt
    obtain ⟨j, rfl⟩ := Nat.exists_eq_add_of_le (Nat.le_of_succ_le hn)
    simpa using hfirst j (by omega) (by omega)
  split_ifs with hlt
  · rw [find?_range'_eq_some, mem_range'_1]
    exact ⟨hp, by omega, hno⟩
  · rw [find?_range'_eq_none]
    exact fun n hn hlt => hno n hn (by omega)

/-! ### One call -/

/-- A stop at length `m`, under the length limit. -/
def capped (r : Req) (kind : FinishKind) (m : Nat) : Option FinishKind × Option Nat :=
  if r.samplingParams.maxNewTokens < m then (some .length, some r.samplingParams.maxNewTokens)
  else (some kind, some m)

theorem outcome_cap {q : Req} (reason : FinishReason) (hr : q.finishedReason = some reason)
    (hl : q.finishedLen = some n) : q.capFinishedLenAtMaxNewTokens.outcome = capped q reason.kind n := by
  rw [capFinishedLenAtMaxNewTokens, hl, capped, any_some]
  by_cases h : q.samplingParams.maxNewTokens < n
  · rw [if_pos (decide_eq_true h), if_pos h]
    rfl
  · rw [if_neg (by simpa using h), if_neg h, outcome, hr, hl, map_some]

/-- The first stop string of the list that the block completes. -/
def reported (r : Req) (tokens : List TokenId) : Option Text :=
  r.samplingParams.stopStrs.find? fun s => MatchedBy r tokens s tokens.length

/-- The block without a stop string and without a stop token. -/
def unstopped (r : Req) (tokens : List TokenId) : Req :=
  if r.samplingParams.maxNewTokens ≤ r.outputIds.length + tokens.length then
    { r.accept tokens with
      finishedReason := some (.length r.samplingParams.maxNewTokens)
      finishedLen := some r.samplingParams.maxNewTokens }
  else if r.grammarTerminated (r.outputIds ++ tokens) then
    { r.accept tokens with finishedReason := (r.outputIds ++ tokens).getLast?.map .matchedToken }
  else r.accept tokens

theorem checkTokenBasedFinish_none (hno : ∀ j, 1 ≤ j → j ≤ tokens.length → ¬ StopTokenAt r tokens j) :
    (r.accept tokens).checkTokenBasedFinish tokens = none := by
  rw [checkTokenBasedFinish]
  split_ifs with heos
  · rfl
  have heos' : r.samplingParams.ignoreEos = false := Bool.eq_false_iff.mpr heos
  have hidx : tokens.findIdx? (r.accept tokens).isStopToken = none := by
    rw [findIdx?_eq_none_iff]
    intro t ht
    obtain ⟨j, hj, rfl⟩ := getElem_of_mem ht
    by_contra hstop
    have hstop' : r.isStopToken tokens[j] := eq_true_of_ne_false hstop
    refine hno (j + 1) (by omega) (by omega) ⟨heos', tokens[j], ?_, hstop'⟩
    rw [Nat.add_sub_cancel, getElem?_eq_getElem]
  rw [hidx, bind_none]

theorem unstopped_length
    (hmax : r.samplingParams.maxNewTokens ≤ r.outputIds.length + tokens.length) :
    (unstopped r tokens).outcome = (some .length, some r.samplingParams.maxNewTokens) := by
  rw [unstopped, if_pos hmax]
  rfl

theorem unstopped_none (hmax : r.outputIds.length + tokens.length < r.samplingParams.maxNewTokens)
    (hg : r.grammarTerminated (r.outputIds ++ tokens) = false) :
    unstopped r tokens = r.accept tokens := by
  rw [unstopped, if_neg (not_le.mpr hmax), hg, if_neg Bool.false_ne_true]

section Block

variable (hne : tokens ≠ []) {p : Nat}

include hne

theorem stopMatchTailLen_accept : (r.accept tokens).stopMatchTailLen tokens.length =
    min (reach r + tokens.length) (r.outputIds.length + tokens.length) := by
  have hpos : 0 < tokens.length := length_pos_iff.mpr hne
  simp only [stopMatchTailLen, accept, length_append, reach]
  omega

theorem start_accept : (r.accept tokens).outputIds.length -
    (r.accept tokens).stopMatchTailLen tokens.length = r.outputIds.length - reach r := by
  rw [stopMatchTailLen_accept hne, accept, length_append]
  omega

theorem tailStr_accept (hs : r.samplingParams.stopStrs ≠ []) :
    (r.accept tokens).tailStr tokens.length =
      textOf r (r.outputIds ++ tokens) (r.outputIds.length - reach r)
        (r.outputIds.length + tokens.length) := by
  have hpos : 0 < tokens.length := length_pos_iff.mpr hne
  have h0 : (r.accept tokens).stopMatchTailLen tokens.length ≠ 0 := by
    rw [stopMatchTailLen_accept hne]
    omega
  rw [tailStr, if_neg fun h => hs h.1, pyLast, if_neg h0, start_accept hne, textOf,
    ← length_append, take_length]
  rfl

/-- The stop string is located at the first token of the block that completes it. -/
theorem locate_accept (hp : 1 ≤ p) (hle : p ≤ tokens.length)
    (hm : MatchedBy r tokens s p) (hfirst : ∀ j, 1 ≤ j → j < p → ¬ MatchedBy r tokens s j) :
    (r.accept tokens).locateStrStopFinishedLen (fun text => s <:+: text) tokens.length true =
      some (r.outputIds.length + p) := by
  have hids : (r.accept tokens).outputIds = r.outputIds ++ tokens := rfl
  have hlen : ((r.outputIds ++ tokens).drop (r.outputIds.length - reach r)).length =
      r.outputIds.length - (r.outputIds.length - reach r) + tokens.length := by
    rw [length_drop, length_append]
    omega
  have hcount : ∀ j, (r.accept tokens).decode (((r.outputIds ++ tokens).drop
      (r.outputIds.length - reach r)).take (r.outputIds.length - (r.outputIds.length - reach r) + j)) =
        textOf r (r.outputIds ++ tokens) (r.outputIds.length - reach r) (r.outputIds.length + j) := by
    intro j
    have hadd : r.outputIds.length - reach r +
        (r.outputIds.length - (r.outputIds.length - reach r) + j) = r.outputIds.length + j := by omega
    rw [take_drop, hadd]
    rfl
  simp only [locateStrStopFinishedLen, start_accept hne]
  simp only [hids, hlen]
  generalize hst : r.outputIds.length - (r.outputIds.length - reach r) = old at hlen hcount ⊢
  have hstart : r.outputIds.length - reach r + old = r.outputIds.length := by omega
  have hfrom : max 1 (old + tokens.length + 1 - tokens.length) = old + 1 := by omega
  rw [hfrom]
  rw [find?_range'_first hp hle (by simpa [hcount, MatchedBy] using hm)
    fun j hj hlt => by simpa [hcount, MatchedBy] using hfirst j hj hlt]
  -- the last token is not tried: its window is known to match
  split_ifs with hlt
  · dsimp only
    rw [← Nat.add_assoc, hstart]
  · simp only [length_append]
    rw [le_antisymm hle (not_lt.mp hlt)]

theorem pyLast_accept : pyLast (r.accept tokens).outputIds tokens.length = tokens := by
  rw [pyLast, if_neg (length_pos_iff.mpr hne).ne', accept, length_append,
    Nat.add_sub_cancel, drop_left' rfl]

theorem find_accept : ((r.accept tokens).samplingParams.stopStrs.find? fun s =>
    decide (s <:+: (r.accept tokens).tailStr tokens.length ∨ s <:+: decodedText)) =
      reported r tokens := by
  refine find?_congr fun s hs => ?_
  have hs : s ∈ r.samplingParams.stopStrs := hs
  rw [tailStr_accept hne (ne_nil_of_mem hs), decide_eq_decide]
  refine or_iff_left_of_imp fun h => ?_
  rw [infix_nil.mp h]
  exact nil_infix

theorem checkStopStrs_none (hrep : reported r tokens = none) :
    (r.accept tokens).checkStopStrs tokens.length = none := by
  rw [checkStopStrs, map_eq_none_iff, find_accept hne, hrep]

variable (hpl : Plain r tokens)

include hpl

/-- The checks that can fire on such a request. -/
theorem acceptBlock_eq : r.acceptBlock search tokens =
    match (r.accept tokens).checkStopStrs tokens.length with
    | some q => q.capFinishedLenAtMaxNewTokens
    | none => match (r.accept tokens).checkTokenBasedFinish tokens with
      | some q => q.capFinishedLenAtMaxNewTokens
      | none => unstopped r tokens := by
  have hfin : (r.accept tokens).finished = false := by
    rw [finished, accept, hpl.unfinished]
    rfl
  have habort : (r.accept tokens).toFinish = none := hpl.noAbort
  have hvocab : (r.accept tokens).checkVocabBoundaryFinish tokens = none := by
    rw [checkVocabBoundaryFinish, map_eq_none_iff, findIdx?_eq_none_iff]
    exact hpl.inRange
  have hregex : (r.accept tokens).samplingParams.stopRegexStrs = [] := hpl.noRegex
  have hlen : (r.accept tokens).outputIds.length = r.outputIds.length + tokens.length :=
    length_append
  rw [acceptBlock, updateFinishState, hfin, habort]
  simp only [Bool.false_eq_true, if_false, pyLast_accept hne, hvocab, checkStrBasedFinish, hregex]
  cases (r.accept tokens).checkStopStrs tokens.length with
  | some q => rfl
  | none =>
    simp only [checkStopRegexes, Bool.false_eq_true, if_false, hlen]
    rfl

theorem acceptBlock_str (hrep : reported r tokens = some s) (hp : 1 ≤ p)
    (hle : p ≤ tokens.length) (hm : MatchedBy r tokens s p)
    (hfirst : ∀ j, 1 ≤ j → j < p → ¬ MatchedBy r tokens s j) :
    (r.acceptBlock search tokens).outcome = capped r .str (r.outputIds.length + p) := by
  have hs : s ∈ r.samplingParams.stopStrs := mem_of_find?_eq_some hrep
  have htail : s <:+: (r.accept tokens).tailStr tokens.length := by
    rw [tailStr_accept hne (ne_nil_of_mem hs)]
    exact hm.mono hle
  have hcheck : (r.accept tokens).checkStopStrs tokens.length = some
      { r.accept tokens with
        finishedReason := some (.matchedStr s)
        finishedLen := some (r.outputIds.length + p) } := by
    rw [checkStopStrs]
    rw [find_accept hne, hrep, map_some, if_pos htail, locate_accept hne hp hle hm hfirst]
  rw [acceptBlock_eq hne hpl, hcheck]
  exact outcome_cap (.matchedStr s) rfl rfl

theorem acceptBlock_token (hrep : reported r tokens = none) (hp : 1 ≤ p)
    (hm : StopTokenAt r tokens p) (hfirst : ∀ j, 1 ≤ j → j < p → ¬ StopTokenAt r tokens j) :
    (r.acceptBlock search tokens).outcome = capped r .token (r.outputIds.length + p) := by
  obtain ⟨heos, t, ht, hstop⟩ := hm
  have hidx : tokens.findIdx? (r.accept tokens).isStopToken = some (p - 1) := by
    obtain ⟨hlt, e⟩ := List.getElem?_eq_some_iff.mp ht
    rw [findIdx?_eq_some_iff_getElem]
    refine ⟨hlt, by rw [e]; exact hstop, fun j hj hstopj => ?_⟩
    refine hfirst (j + 1) (by omega) (by omega) ⟨heos, tokens[j], ?_, hstopj⟩
    rw [Nat.add_sub_cancel, getElem?_eq_getElem]
  have hcheck : (r.accept tokens).checkTokenBasedFinish tokens = some
      { r.accept tokens with
        finishedReason := some (.matchedToken t)
        finishedLen := some (r.outputIds.length + p) } := by
    have heos' : (r.accept tokens).samplingParams.ignoreEos = false := heos
    have hlen : (r.accept tokens).outputIds.length - tokens.length + (p - 1) + 1 =
        r.outputIds.length + p := by
      rw [accept, length_append]
      omega
    rw [checkTokenBasedFinish, heos', if_neg Bool.false_ne_true, hidx, bind_some, ht,
      map_some, hlen]
  rw [acceptBlock_eq hne hpl, checkStopStrs_none hne hrep, hcheck]
  exact outcome_cap (.matchedToken t) rfl rfl

theorem acceptBlock_unstopped (hrep : reported r tokens = none)
    (hno : ∀ j, 1 ≤ j → j ≤ tokens.length → ¬ StopTokenAt r tokens j) :
    r.acceptBlock search tokens = unstopped r tokens := by
  rw [acceptBlock_eq hne hpl, checkStopStrs_none hne hrep, checkTokenBasedFinish_none hno]

theorem unstopped_grammar
    (hmax : r.outputIds.length + tokens.length < r.samplingParams.maxNewTokens)
    (hg : r.grammarTerminated (r.outputIds ++ tokens)) :
    (unstopped r tokens).outcome = (some .token, none) := by
  obtain ⟨t, ht⟩ : ∃ t, (r.outputIds ++ tokens).getLast? = some t :=
    ⟨_, getLast?_eq_getLast_of_ne_nil (append_ne_nil_of_right_ne_nil _ hne)⟩
  rw [unstopped, if_neg (not_le.mpr hmax), hg, if_pos rfl, ht, outcome, map_some, accept,
    hpl.noLen]
  rfl

end Block

/-! ### Token by token -/

section Each

variable {q : Req} {k : FinishKind}

theorem acceptEach_of_finished (h : q.finished) (l : List TokenId) : q.acceptEach search l = q := by
  cases l with
  | nil => rfl
  | cons t l => rw [acceptEach, if_pos h]

theorem finished_of_outcome {o : Option Nat} (h : q.outcome = (some k, o)) : q.finished := by
  obtain ⟨reason, e, -⟩ := map_eq_some_iff.mp (congrArg Prod.fst h)
  rw [finished, e]
  rfl

/-- What the `j`-th single step comes to. -/
def Fires (r : Req) (tokens : List TokenId) (j : Nat) : Prop :=
  (∃ s ∈ r.samplingParams.stopStrs, MatchedAt r tokens s j) ∨ StopTokenAt r tokens j ∨
    r.samplingParams.maxNewTokens ≤ r.outputIds.length + j ∨
    r.grammarTerminated (r.outputIds ++ tokens.take j)

/-- No stop string is found at the `j`-th token, and it is no stop token. -/
structure Quiet (r : Req) (tokens : List TokenId) (j : Nat) : Prop where
  str : ∀ s ∈ r.samplingParams.stopStrs, ¬ MatchedAt r tokens s j
  token : ¬ StopTokenAt r tokens j

section

variable (ht : tokens[i]? = some t)
include ht

theorem matchedBy_step :
    MatchedBy (r.accept (tokens.take i)) [t] s 1 ↔ MatchedAt r tokens s (i + 1) := by
  obtain ⟨hlt, e⟩ := List.getElem?_eq_some_iff.mp ht
  have hlen : (r.outputIds ++ tokens.take i).length = r.outputIds.length + i := by
    rw [length_append, length_take, min_eq_left hlt.le]
  have hsnoc : tokens.take i ++ [t] = tokens.take (i + 1) := by
    rw [take_add_one, ht, toList_some]
  have htake : (r.outputIds ++ tokens).take (r.outputIds.length + i + 1) =
      r.outputIds ++ tokens.take (i + 1) := by
    rw [Nat.add_assoc, take_length_add_append]
  have hfull : (r.outputIds ++ tokens.take (i + 1)).take (r.outputIds.length + i + 1) =
      r.outputIds ++ tokens.take (i + 1) := by
    rw [Nat.add_assoc, take_length_add_append, take_take, min_self]
  have hids : (r.accept (tokens.take i)).outputIds = r.outputIds ++ tokens.take i := rfl
  rw [MatchedBy, MatchedAt, hids, hlen, append_assoc, hsnoc, textOf, textOf, hfull,
    ← Nat.add_assoc, Nat.add_sub_cancel, htake]
  rfl

theorem stopTokenAt_step :
    StopTokenAt (r.accept (tokens.take i)) [t] 1 ↔ StopTokenAt r tokens (i + 1) := by
  rw [StopTokenAt, StopTokenAt, Nat.add_sub_cancel, ht]
  rfl

theorem reported_step_none (hno : ∀ s ∈ r.samplingParams.stopStrs, ¬ MatchedAt r tokens s (i + 1)) :
    reported (r.accept (tokens.take i)) [t] = none := by
  rw [reported, find?_eq_none]
  intro s hs hm
  exact hno s hs ((matchedBy_step ht).mp (by simpa using hm))

theorem length_step :
    (r.accept (tokens.take i)).outputIds.length + 1 = r.outputIds.length + (i + 1) := by
  obtain ⟨hlt, -⟩ := List.getElem?_eq_some_iff.mp ht
  rw [accept, length_append, length_take, min_eq_left hlt.le, Nat.add_assoc]

theorem unstopped_step :
    unstopped (r.accept (tokens.take i)) [t] = unstopped r (tokens.take (i + 1)) := by
  have hids : (r.accept (tokens.take i)).outputIds ++ [t] = r.outputIds ++ tokens.take (i + 1) := by
    rw [accept, append_assoc, take_add_one, ht, toList_some]
  have hlen := congrArg List.length hids
  rw [length_append, length_append] at hlen
  simp only [unstopped, hids, hlen]
  simp only [accept, ← hids]

end

variable (hpl : Plain r tokens)

include hpl

section

variable (ht : tokens[i]? = some t)
include ht

theorem plain_step : Plain (r.accept (tokens.take i)) [t] := by
  obtain ⟨hlt, e⟩ := List.getElem?_eq_some_iff.mp ht
  refine ⟨hpl.unfinished, hpl.noLen, hpl.noAbort, hpl.noRegex,
    fun j hj hlt => absurd hj (not_le.mpr hlt), fun t' ht' => ?_⟩
  obtain rfl := mem_singleton.mp ht'
  exact hpl.inRange _ (e ▸ getElem_mem hlt)

/-- A single step on a quiet token. -/
theorem step_quiet (hq : Quiet r tokens (i + 1)) :
    (r.accept (tokens.take i)).acceptBlock search [t] = unstopped r (tokens.take (i + 1)) := by
  rw [acceptBlock_unstopped (cons_ne_nil _ _) (plain_step hpl ht) (reported_step_none ht hq.str),
    unstopped_step ht]
  intro j hj hle hm
  obtain rfl : j = 1 := le_antisymm hle hj
  exact hq.token ((stopTokenAt_step ht).mp hm)

theorem step_none (hno : ¬ Fires r tokens (i + 1)) :
    (r.accept (tokens.take i)).acceptBlock search [t] = r.accept (tokens.take (i + 1)) := by
  obtain ⟨hlt, -⟩ := List.getElem?_eq_some_iff.mp ht
  rw [step_quiet hpl ht ⟨fun s hs hm => hno (.inl ⟨s, hs, hm⟩), fun hm => hno (.inr (.inl hm))⟩,
    unstopped_none]
  · rw [length_take_of_le hlt]
    exact not_le.mp fun h => hno (.inr (.inr (.inl h)))
  · exact Bool.eq_false_iff.mpr fun h => hno (.inr (.inr (.inr h)))

theorem step_str (hs : s ∈ r.samplingParams.stopStrs) (hm : MatchedAt r tokens s (i + 1)) :
    ((r.accept (tokens.take i)).acceptBlock search [t]).outcome =
      capped r .str (r.outputIds.length + (i + 1)) := by
  have hsome : (reported (r.accept (tokens.take i)) [t]).isSome := by
    rw [reported, find?_isSome]
    exact ⟨s, hs, by simpa using (matchedBy_step ht).mpr hm⟩
  obtain ⟨s', hs'⟩ := isSome_iff_exists.mp hsome
  have hm' : MatchedBy (r.accept (tokens.take i)) [t] s' 1 := by
    simpa using find?_some hs'
  rw [acceptBlock_str (cons_ne_nil _ _) (plain_step hpl ht) hs' le_rfl le_rfl hm'
    (fun j hj hlt => absurd hj (not_le.mpr hlt)), length_step ht]
  rfl

theorem step_token (hno : ∀ s ∈ r.samplingParams.stopStrs, ¬ MatchedAt r tokens s (i + 1))
    (hm : StopTokenAt r tokens (i + 1)) :
    ((r.accept (tokens.take i)).acceptBlock search [t]).outcome =
      capped r .token (r.outputIds.length + (i + 1)) := by
  rw [acceptBlock_token (cons_ne_nil _ _) (plain_step hpl ht) (reported_step_none ht hno) le_rfl
    ((stopTokenAt_step ht).mpr hm) (fun j hj hlt => absurd hj (not_le.mpr hlt)), length_step ht]
  rfl

theorem step_length (hq : Quiet r tokens (i + 1))
    (hmax : r.samplingParams.maxNewTokens ≤ r.outputIds.length + (i + 1)) :
    ((r.accept (tokens.take i)).acceptBlock search [t]).outcome =
      (some .length, some r.samplingParams.maxNewTokens) := by
  obtain ⟨hlt, -⟩ := List.getElem?_eq_some_iff.mp ht
  rw [step_quiet hpl ht hq, unstopped_length]
  rwa [length_take_of_le hlt]

end

theorem acceptEach_drop (hlt : i < tokens.length) :
    (r.accept (tokens.take i)).acceptEach search (tokens.drop i) =
      ((r.accept (tokens.take i)).acceptBlock search [tokens[i]]).acceptEach search
        (tokens.drop (i + 1)) := by
  have hunfin : (r.accept (tokens.take i)).finished = false := by
    rw [finished, accept, hpl.unfinished]
    rfl
  rw [drop_eq_getElem_cons hlt, acceptEach, hunfin, if_neg Bool.false_ne_true]
  rfl

/-- Steps that do not fire only append. -/
theorem acceptEach_skip (hi : i ≤ tokens.length) (hno : ∀ j, 1 ≤ j → j ≤ i → ¬ Fires r tokens j) :
    r.acceptEach search tokens =
      (r.accept (tokens.take i)).acceptEach search (tokens.drop i) := by
  induction i with
  | zero => simp [accept]
  | succ i ih =>
    have hlt : i < tokens.length := hi
    rw [ih (by omega) fun j hj hle => hno j hj (by omega), acceptEach_drop hpl hlt,
      step_none hpl (getElem?_eq_getElem hlt) (hno (i + 1) (by omega) le_rfl)]

/-- The first step that fires decides. -/
theorem acceptEach_first (hlt : i < tokens.length) (hno : ∀ l, 1 ≤ l → l ≤ i → ¬ Fires r tokens l)
    {o : Option FinishKind × Option Nat} {m : Option Nat} (ho : o = (some k, m))
    (hstep : ∀ t, tokens[i]? = some t →
      ((r.accept (tokens.take i)).acceptBlock search [t]).outcome = o) :
    (r.acceptEach search tokens).outcome = o := by
  have hout := hstep _ (getElem?_eq_getElem hlt)
  rw [acceptEach_skip hpl hlt.le hno, acceptEach_drop hpl hlt,
    acceptEach_of_finished (finished_of_outcome (hout.trans ho)), hout]

theorem not_fires {l : Nat} (hl : 1 ≤ l) (hlt : l < tokens.length) (hq : Quiet r tokens l)
    (hlim : r.outputIds.length + l < r.samplingParams.maxNewTokens) : ¬ Fires r tokens l := by
  rintro (⟨s, hs, hm⟩ | hm | hm | hm)
  · exact hq.str s hs hm
  · exact hq.token hm
  · exact absurd hm (not_le.mpr hlim)
  · rw [hpl.grammar l hl hlt] at hm
    cases hm

/-- At the length limit, a step that is past the limit or that nothing else stops finishes there. -/
theorem step_limit (ht : tokens[i]? = some t)
    (hmax : r.samplingParams.maxNewTokens ≤ r.outputIds.length + (i + 1))
    (hno : r.samplingParams.maxNewTokens = r.outputIds.length + (i + 1) → Quiet r tokens (i + 1)) :
    ((r.accept (tokens.take i)).acceptBlock search [t]).outcome =
      (some .length, some r.samplingParams.maxNewTokens) := by
  rcases Nat.eq_or_lt_of_le hmax with heq | hlt
  · exact step_length hpl ht (hno heq) hmax
  by_cases hstr : ∃ s ∈ r.samplingParams.stopStrs, MatchedAt r tokens s (i + 1)
  · obtain ⟨s, hs, hm⟩ := hstr
    rw [step_str hpl ht hs hm, capped, if_pos hlt]
  · push Not at hstr
    by_cases htok : StopTokenAt r tokens (i + 1)
    · rw [step_token hpl ht hstr htok, capped, if_pos hlt]
    · exact step_length hpl ht ⟨hstr, htok⟩ hmax

/-- Token by token, a request that reaches the length limit with nothing before it finishes there. -/
theorem acceptEach_limit (hne : tokens ≠ [])
    (hmax : r.samplingParams.maxNewTokens ≤ r.outputIds.length + tokens.length)
    (hno : ∀ j, 1 ≤ j → j ≤ tokens.length →
      r.outputIds.length + j ≤ r.samplingParams.maxNewTokens → Quiet r tokens j) :
    (r.acceptEach search tokens).outcome = (some .length, some r.samplingParams.maxNewTokens) := by
  have hpos : 0 < tokens.length := length_pos_iff.mpr hne
  obtain ⟨i, hi⟩ : ∃ i, i = r.samplingParams.maxNewTokens - r.outputIds.length - 1 := ⟨_, rfl⟩
  refine acceptEach_first (i := i) hpl (by omega) (fun l hl hle => ?_) rfl fun t ht => ?_
  · exact not_fires hpl hl (by omega) (hno l hl (by omega) (by omega)) (by omega)
  · exact step_limit hpl ht (by omega) fun heq => hno (i + 1) (by omega) (by omega) heq.ge

/-- The first stop string or stop token decides, under the length limit. -/
theorem acceptEach_capped (hlt : i < tokens.length)
    (hq : ∀ j, 1 ≤ j → j ≤ i → r.outputIds.length + j ≤ r.samplingParams.maxNewTokens →
      Quiet r tokens j)
    (hstep : ∀ t, tokens[i]? = some t → ((r.accept (tokens.take i)).acceptBlock search [t]).outcome =
      capped r k (r.outputIds.length + (i + 1))) :
    (r.acceptEach search tokens).outcome = capped r k (r.outputIds.length + (i + 1)) := by
  by_cases hlim : r.outputIds.length + (i + 1) ≤ r.samplingParams.maxNewTokens
  · refine acceptEach_first hpl hlt (fun l hl hle => ?_) (if_neg (not_lt.mpr hlim)) hstep
    exact not_fires hpl hl (by omega) (hq l hl hle (by omega)) (by omega)
  · rw [capped, if_pos (not_le.mp hlim)]
    refine acceptEach_limit hpl (ne_nil_of_length_pos (by omega)) (by omega) fun j hj _ hjlim => ?_
    exact hq j hj (by omega) hjlim

end Each

/-! ### The comparison -/

/-- If `s` is the first stop string of the list that the block completes, then within the length limit
`s` is complete wherever another stop string is or a stop token stands. -/
def Orderly (r : Req) (tokens : List TokenId) : Prop :=
  ∀ l₁ s l₂, r.samplingParams.stopStrs = l₁ ++ s :: l₂ →
    (∀ s' ∈ l₁, ¬ MatchedBy r tokens s' tokens.length) → MatchedBy r tokens s tokens.length →
    ∀ j, 1 ≤ j → j ≤ tokens.length → r.outputIds.length + j ≤ r.samplingParams.maxNewTokens →
      (∃ s' ∈ r.samplingParams.stopStrs, MatchedBy r tokens s' j) ∨ StopTokenAt r tokens j →
      MatchedBy r tokens s j

/-- A stop string or a stop token within the first `j` tokens. -/
def StopsAt (r : Req) (tokens : List TokenId) (j : Nat) : Prop :=
  (∃ s ∈ r.samplingParams.stopStrs, MatchedBy r tokens s j) ∨ StopTokenAt r tokens j

theorem orderly_of_reported_none (hrep : reported r tokens = none) : Orderly r tokens := by
  intro l₁ s l₂ e _ hm
  have hno := find?_eq_none.mp hrep s (by rw [e]; simp)
  exact absurd (decide_eq_true hm) hno

theorem orderly_iff (hrep : reported r tokens = some s) : Orderly r tokens ↔
    ∀ j, 1 ≤ j → j ≤ tokens.length → r.outputIds.length + j ≤ r.samplingParams.maxNewTokens →
      StopsAt r tokens j → MatchedBy r tokens s j := by
  obtain ⟨hm, l₁, l₂, e, hbefore⟩ := find?_eq_some_iff_append.mp hrep
  have hm : MatchedBy r tokens s tokens.length := by simpa using hm
  constructor
  · intro h
    exact h l₁ s l₂ e (fun s' hs' => by simpa using hbefore s' hs') hm
  intro h l₁' s' l₂' e' hno hm'
  -- both are the first string of the list that is complete
  have hrep' : reported r tokens = some s' := find?_eq_some_iff_append.mpr
    ⟨by simpa using hm', l₁', l₂', e', fun a ha => by simpa using hno a ha⟩
  obtain rfl : s = s' := Option.some.inj (hrep.symm.trans hrep')
  exact h

section Compare

variable (hpl : Plain r tokens) (hne : tokens ≠ [])

theorem not_matchedAt_of_reported_none (hrep : reported r tokens = none) (hj : 1 ≤ j)
    (hle : j ≤ tokens.length) : ∀ s ∈ r.samplingParams.stopStrs, ¬ MatchedAt r tokens s j := by
  intro s hs hm
  have hno := find?_eq_none.mp hrep s hs
  exact hno (by simpa using (hm.matchedBy hj).mono hle)

include hpl hne

/-- Without a stop string in the block the two agree. -/
theorem outcome_eq_of_reported_none (hrep : reported r tokens = none) :
    (r.acceptBlock search tokens).outcome = (r.acceptEach search tokens).outcome := by
  have hpos : 0 < tokens.length := length_pos_iff.mpr hne
  have hstr : ∀ j, 1 ≤ j → j ≤ tokens.length → ∀ s ∈ r.samplingParams.stopStrs,
      ¬ MatchedAt r tokens s j := fun j hj hle => not_matchedAt_of_reported_none hrep hj hle
  by_cases htok : ∃ i, i < tokens.length ∧ StopTokenAt r tokens (i + 1)
  · -- the first stop token
    obtain ⟨i₀, hi₀, hm₀⟩ := htok
    obtain ⟨i, hi, hm, hfirst⟩ := exists_least hm₀
    have hlt : i < tokens.length := by omega
    rw [acceptBlock_token hne hpl hrep (Nat.le_add_left 1 i) hm fun j hj h => hfirst j hj (by omega)]
    refine (acceptEach_capped hpl hlt (fun j hj hle _ => ?_) fun t ht => ?_).symm
    · exact ⟨hstr j hj (by omega), hfirst j hj hle⟩
    · exact step_token hpl ht (hstr (i + 1) (by omega) hlt) hm
  · have hno : ∀ j, 1 ≤ j → j ≤ tokens.length → ¬ StopTokenAt r tokens j := by
      intro j hj hle hm
      obtain ⟨l, rfl⟩ : ∃ l, j = l + 1 := ⟨j - 1, by omega⟩
      exact htok ⟨l, hle, hm⟩
    have hq : ∀ j, 1 ≤ j → j ≤ tokens.length → Quiet r tokens j := fun j hj hle =>
      ⟨hstr j hj hle, hno j hj hle⟩
    rw [acceptBlock_unstopped hne hpl hrep hno]
    by_cases hlim : r.samplingParams.maxNewTokens ≤ r.outputIds.length + tokens.length
    · rw [unstopped_length hlim, acceptEach_limit hpl hne hlim]
      exact fun j hj hle _ => hq j hj hle
    obtain ⟨n, hn⟩ : ∃ n, tokens.length = n + 1 := ⟨tokens.length - 1, by omega⟩
    have hquiet : ∀ l, 1 ≤ l → l ≤ n → ¬ Fires r tokens l := fun l hl hle =>
      not_fires hpl hl (by omega) (hq l hl (by omega)) (by omega)
    have hlast : tokens.take (n + 1) = tokens := by rw [← hn, take_length]
    cases hg : r.grammarTerminated (r.outputIds ++ tokens) with
    | true =>
      have hout := unstopped_grammar hne hpl (not_le.mp hlim) hg
      refine (acceptEach_first hpl (by omega) hquiet hout fun t ht => ?_).symm
      rw [step_quiet hpl ht (hq (n + 1) (by omega) hn.ge), hlast]
    | false =>
      have hall : ∀ l, 1 ≤ l → l ≤ tokens.length → ¬ Fires r tokens l := by
        intro l hl hle
        rcases Nat.eq_or_lt_of_le hle with rfl | hlt
        · rintro (⟨s, hs, hm⟩ | hm | hm | hm)
          · exact hstr _ hl le_rfl s hs hm
          · exact hno _ hl le_rfl hm
          · exact hlim hm
          · rw [take_length, hg] at hm
            cases hm
        · exact hquiet l hl (by omega)
      rw [unstopped_none (not_le.mp hlim) hg, acceptEach_skip hpl le_rfl hall, take_length,
        drop_length, acceptEach]

/-- With a stop string in the block, the two agree exactly if nothing stops before it. -/
theorem outcome_eq_iff_of_reported (hw : WideWindows r (r.outputIds ++ tokens))
    (hrep : reported r tokens = some s) :
    (r.acceptBlock search tokens).outcome = (r.acceptEach search tokens).outcome ↔
      Orderly r tokens := by
  have hpos : 0 < tokens.length := length_pos_iff.mpr hne
  have hs : s ∈ r.samplingParams.stopStrs := mem_of_find?_eq_some hrep
  have hmn : MatchedBy r tokens s tokens.length := by simpa using find?_some hrep
  rw [← Nat.sub_add_cancel hpos] at hmn
  obtain ⟨i, hi, hm, hfirst⟩ := exists_least hmn
  have hp : 1 ≤ i + 1 := Nat.le_add_left 1 i
  have hpn : i + 1 ≤ tokens.length := by omega
  rw [orderly_iff hrep, acceptBlock_str hne hpl hrep hp hpn hm fun j hj h => hfirst j hj (by omega)]
  constructor
  · -- the first stop within the limit would be reported with its own length
    intro heq j hj hjn hjlim hstop
    by_contra hno
    have hji : j ≤ i := by
      by_contra hlt
      exact hno (hm.mono (by omega))
    rw [← Nat.sub_add_cancel hj] at hstop
    obtain ⟨l, hle, hat, hbefore⟩ := exists_least hstop
    have hlt : l < tokens.length := by omega
    have hquiet : ∀ m, 1 ≤ m → m ≤ l → Quiet r tokens m := fun m hm₁ hm₂ =>
      ⟨fun s' hs' h => hbefore m hm₁ hm₂ (.inl ⟨s', hs', h.matchedBy hm₁⟩),
        fun h => hbefore m hm₁ hm₂ (.inr h)⟩
    obtain ⟨k, hk, hseq⟩ : ∃ k, k ≠ .length ∧ (r.acceptEach search tokens).outcome =
        capped r k (r.outputIds.length + (l + 1)) := by
      by_cases hstr : ∃ s' ∈ r.samplingParams.stopStrs, MatchedAt r tokens s' (l + 1)
      · obtain ⟨s', hs', hm'⟩ := hstr
        exact ⟨.str, by decide, acceptEach_capped hpl hlt (fun m hm₁ hm₂ _ => hquiet m hm₁ hm₂)
          fun t ht => step_str hpl ht hs' hm'⟩
      push Not at hstr
      have htok : StopTokenAt r tokens (l + 1) := by
        refine hat.resolve_left fun ⟨s', hs', hm'⟩ => hstr s' hs' ?_
        refine matchedAt_of_first hw hs' (by omega) hlt hm' fun hl hml => ?_
        exact hbefore l (by omega) le_rfl (.inl ⟨s', hs', hml⟩)
      exact ⟨.token, by decide, acceptEach_capped hpl hlt (fun m hm₁ hm₂ _ => hquiet m hm₁ hm₂)
        fun t ht => step_token hpl ht hstr htok⟩
    have hcap : capped r k (r.outputIds.length + (l + 1)) = (some k, _) := if_neg (by omega)
    rw [hseq, hcap, capped] at heq
    split_ifs at heq with hover
    · exact hk (Option.some.inj (congrArg Prod.fst heq)).symm
    · simp at heq
      omega
  · intro hord
    have hnot : ∀ j, 1 ≤ j → j ≤ i → r.outputIds.length + j ≤ r.samplingParams.maxNewTokens →
        Quiet r tokens j := by
      intro j hj hle hlim
      have hstop : ¬ StopsAt r tokens j := fun h =>
        hfirst j hj (by omega) (hord j hj (by omega) hlim h)
      exact ⟨fun s' hs' h => hstop (.inl ⟨s', hs', h.matchedBy hj⟩), fun h => hstop (.inr h)⟩
    refine (acceptEach_capped hpl hpn hnot fun t ht => ?_).symm
    refine step_str hpl ht hs (matchedAt_of_first hw hs hp hpn hm fun hlt => ?_)
    exact hfirst i (by omega) (by omega)

/-- **A block finishes as its tokens one by one do exactly if no other stop string and no stop token
comes before the stop string that is first in the list**, within the length limit. -/
theorem acceptBlock_outcome_iff (hw : WideWindows r (r.outputIds ++ tokens)) :
    (r.acceptBlock search tokens).outcome = (r.acceptEach search tokens).outcome ↔
      Orderly r tokens := by
  cases hrep : reported r tokens with
  | none => exact iff_of_true (outcome_eq_of_reported_none hpl hne hrep) (orderly_of_reported_none hrep)
  | some s => exact outcome_eq_iff_of_reported hpl hne hw hrep

end Compare

/-- Windows that reach over all tokens are wide enough. -/
theorem wideWindows_of_length_le {ids : List TokenId} (h : ids.length ≤ reach r) :
    WideWindows r ids := by
  intro s _ m hm start hmatch _
  exact hmatch.trans (textOf_mono r ids (by omega) le_rfl)

/-- Token 1 is the end of sequence and token 2 spells the stop string. -/
def stopAndEos : Req where
  samplingParams := {
    stopStrs := [['S']], stopStrMaxLen := 4, stopRegexStrs := [], stopRegexMaxLen := 0
    stopTokenIds := [], ignoreEos := false, maxNewTokens := 8 }
  tokenizer := {
    text := fun t => if t = 2 then ['S'] else [], eosTokenId := none, additionalStopTokenIds := [] }
  eosTokenIds := [1]
  vocabSize := some 10
  grammarTerminated := fun _ => false
  outputIds := []
  finishedReason := none
  finishedLen := none
  toFinish := none

theorem plain_stopAndEos (h : ∀ t ∈ tokens, 0 ≤ t ∧ t < 10) : Plain stopAndEos tokens where
  unfinished := rfl
  noLen := rfl
  noAbort := rfl
  noRegex := rfl
  grammar := fun _ _ _ => rfl
  inRange := fun t ht => by
    obtain ⟨h₀, h₁⟩ := h t ht
    simp [outOfRange, stopAndEos, h₀, h₁]

/-- A block in which the end of sequence comes before the stop string: the block is cut behind the
stop string, two tokens late. -/
theorem eos_before_stopStr :
    Plain stopAndEos [1, 3, 2] ∧ WideWindows stopAndEos (stopAndEos.outputIds ++ [1, 3, 2]) ∧
      (stopAndEos.acceptBlock (fun _ _ => none) [1, 3, 2]).outcome = (some .str, some 3) ∧
      (stopAndEos.acceptEach (fun _ _ => none) [1, 3, 2]).outcome = (some .token, some 1) :=
  ⟨plain_stopAndEos (by decide), wideWindows_of_length_le (by decide), rfl, rfl⟩

/-- A block in which the stop string comes first. -/
theorem acceptBlock_outcome_iff_stopStrFirst :
    (stopAndEos.acceptBlock (fun _ _ => none) [3, 2, 1]).outcome = (some .str, some 2) ∧
      Orderly stopAndEos [3, 2, 1] :=
  have hiff : (stopAndEos.acceptBlock (fun _ _ => none) [3, 2, 1]).outcome =
      (stopAndEos.acceptEach (fun _ _ => none) [3, 2, 1]).outcome ↔ Orderly stopAndEos [3, 2, 1] :=
    acceptBlock_outcome_iff (plain_stopAndEos (by decide)) (by decide)
      (wideWindows_of_length_le (by decide))
  ⟨rfl, hiff.mp rfl⟩

end SglangRuntime.Finish
