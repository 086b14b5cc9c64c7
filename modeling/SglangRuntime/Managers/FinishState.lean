import Mathlib.Data.List.Infix

/-!
# Managers — when a request finishes

`Req.update_finish_state` and the checks it makes, in the order of the source: ids outside the
vocabulary, stop strings and patterns, stop tokens, the length limit, the grammar.

Decoding is the concatenation of the texts of the tokens.  `search` is `re.search`, with `none` for an
error.  `decoded_text` is assigned in `__init__` only.
-/

namespace SglangRuntime.Finish

abbrev Text := List Char
abbrev TokenId := Int

inductive FinishReason where
  | matchedToken (matched : TokenId)
  | matchedStr (matched : Text)
  | matchedRegex (matched : Text)
  | length (length : Nat)
  | abort (message : Text)
deriving DecidableEq, Repr

inductive FinishKind where
  | token
  | str
  | regex
  | length
  | abort
deriving DecidableEq, Repr

def FinishReason.kind : FinishReason → FinishKind
  | .matchedToken _ => .token
  | .matchedStr _ => .str
  | .matchedRegex _ => .regex
  | .length _ => .length
  | .abort _ => .abort

structure SamplingParams where
  stopStrs : List Text
  stopStrMaxLen : Nat
  stopRegexStrs : List Text
  stopRegexMaxLen : Nat
  stopTokenIds : List TokenId
  ignoreEos : Bool
  maxNewTokens : Nat

/-- A tokenizer; one that was not initialised has no ids of its own. -/
structure Tokenizer where
  text : TokenId → Text
  eosTokenId : Option TokenId
  additionalStopTokenIds : List TokenId

structure Req where
  samplingParams : SamplingParams
  tokenizer : Tokenizer
  eosTokenIds : List TokenId
  vocabSize : Option Int
  /-- `grammar is not None and grammar.is_terminated()`, when these are the output ids -/
  grammarTerminated : List TokenId → Bool
  outputIds : List TokenId
  finishedReason : Option FinishReason
  finishedLen : Option Nat
  toFinish : Option FinishReason

def decodedText : Text := []

/-- `l[-n:]`. -/
def pyLast {α : Type} (l : List α) (n : Nat) : List α := if n = 0 then l else l.drop (l.length - n)

namespace Req

variable (search : Text → Text → Option Bool) (r : Req)

def decode (ids : List TokenId) : Text := ids.flatMap r.tokenizer.text

def finished : Bool := r.finishedReason.isSome

variable (newAcceptedLen : Nat) {n : Nat} {r' : Req} {tokens : List TokenId}

def stopMatchTailLen : Nat :=
  min (max (r.samplingParams.stopStrMaxLen + 1) (r.samplingParams.stopRegexMaxLen + 1) +
    (newAcceptedLen - 1)) r.outputIds.length

def tailStr : Text :=
  if r.samplingParams.stopStrs = [] ∧ r.samplingParams.stopRegexStrs = [] then []
  else r.decode (pyLast r.outputIds (r.stopMatchTailLen newAcceptedLen))

/-- Whether a token id stops the request. -/
def isStopToken (t : TokenId) : Bool :=
  r.samplingParams.stopTokenIds.contains t || r.eosTokenIds.contains t ||
    r.tokenizer.eosTokenId == some t || r.tokenizer.additionalStopTokenIds.contains t

variable (newAcceptedTokens : List TokenId)

/-- `_check_token_based_finish`; `none` is `False`. -/
def checkTokenBasedFinish : Option Req :=
  if r.samplingParams.ignoreEos then none
  else (newAcceptedTokens.findIdx? r.isStopToken).bind fun i =>
    newAcceptedTokens[i]?.map fun t =>
      { r with
        finishedReason := some (.matchedToken t)
        finishedLen := some (r.outputIds.length - newAcceptedTokens.length + i + 1) }

/-- `_locate_str_stop_finished_len`, of whichever way to match. -/
def locateStrStopFinishedLen (matched : Text → Bool) (newAcceptedLen : Nat)
    (fullWindowMatched : Bool) : Option Nat :=
  let start := r.outputIds.length - r.stopMatchTailLen newAcceptedLen
  let tokenWindow := r.outputIds.drop start
  let first := max 1 (tokenWindow.length + 1 - newAcceptedLen)
  match (List.range' first (tokenWindow.length - first)).find? fun n =>
    matched (r.decode (tokenWindow.take n)) with
  | some n => some (start + n)
  | none => if fullWindowMatched then some r.outputIds.length else none

/-- The loop over the stop strings. -/
def checkStopStrs : Option Req :=
  let tail := r.tailStr newAcceptedLen
  (r.samplingParams.stopStrs.find? fun s => s <:+: tail ∨ s <:+: decodedText).map fun s =>
    { r with
      finishedReason := some (.matchedStr s)
      finishedLen := if s <:+: tail then
          r.locateStrStopFinishedLen (fun text => s <:+: text) newAcceptedLen true
        else r.finishedLen }

/-- The loop over the stop patterns. -/
def checkStopRegexes (newAcceptedLen : Nat) : List Text → Req × Bool
  | [] => (r, false)
  | pattern :: patterns =>
    let matched := fun text => search pattern text == some true
    match search pattern (r.tailStr newAcceptedLen) with
    | none => ({ r with finishedReason := some (.abort pattern) }, false)
    | some found =>
      let finishedLen := if found then r.locateStrStopFinishedLen matched newAcceptedLen true
        else if 1 < newAcceptedLen then r.locateStrStopFinishedLen matched newAcceptedLen false
        else none
      match finishedLen with
      | some n =>
        ({ r with finishedReason := some (.matchedRegex pattern), finishedLen := some n }, true)
      | none => checkStopRegexes newAcceptedLen patterns

/-- `_check_str_based_finish`. -/
def checkStrBasedFinish : Req × Bool :=
  match r.checkStopStrs newAcceptedLen with
  | some r => (r, true)
  | none => r.checkStopRegexes search newAcceptedLen r.samplingParams.stopRegexStrs

def outOfRange (t : TokenId) : Bool := t < 0 || r.vocabSize.any (· ≤ t)

/-- `_check_vocab_boundary_finish`. -/
def checkVocabBoundaryFinish : Option Req :=
  (newAcceptedTokens.findIdx? r.outOfRange).map fun i =>
    let offset := r.outputIds.length - newAcceptedTokens.length + i
    let ids := match r.samplingParams.stopTokenIds with
      | [] => r.outputIds
      | t :: _ => r.outputIds.set offset t
    let ids := match r.eosTokenIds with
      | [] => ids
      | t :: _ => ids.set offset t
    { r with
      outputIds := ids
      finishedReason := some (.matchedStr "NaN happened".toList)
      finishedLen := some (offset + 1) }

/-- `_cap_finished_len_at_max_new_tokens`. -/
def capFinishedLenAtMaxNewTokens : Req :=
  if r.finishedLen.any (r.samplingParams.maxNewTokens < ·) then
    { r with
      finishedReason := some (.length r.samplingParams.maxNewTokens)
      finishedLen := some r.samplingParams.maxNewTokens }
  else r

/-- `update_finish_state`. -/
def updateFinishState : Req :=
  if r.finished then r
  else match r.toFinish with
  | some reason => { r with finishedReason := some reason, toFinish := none }
  | none =>
    let newAcceptedTokens := pyLast r.outputIds newAcceptedLen
    match r.checkVocabBoundaryFinish newAcceptedTokens with
    | some r => r.capFinishedLenAtMaxNewTokens
    | none =>
      let (r, hit) := r.checkStrBasedFinish search newAcceptedLen
      if hit then r.capFinishedLenAtMaxNewTokens
      else match r.checkTokenBasedFinish newAcceptedTokens with
      | some r => r.capFinishedLenAtMaxNewTokens
      | none =>
        if r.samplingParams.maxNewTokens ≤ r.outputIds.length then
          { r with
            finishedReason := some (.length r.samplingParams.maxNewTokens)
            finishedLen := some r.samplingParams.maxNewTokens }
        else if r.grammarTerminated r.outputIds then
          { r with finishedReason := r.outputIds.getLast?.map .matchedToken }
        else r

/-- Accepted tokens are appended. -/
def accept (tokens : List TokenId) : Req := { r with outputIds := r.outputIds ++ tokens }

/-- A block of accepted tokens, checked once. -/
def acceptBlock (tokens : List TokenId) : Req :=
  (r.accept tokens).updateFinishState search tokens.length

/-- The same tokens one at a time, until the request is finished. -/
def acceptEach (r : Req) : List TokenId → Req
  | [] => r
  | t :: tokens =>
    if r.finished then r
    else acceptEach ((r.accept [t]).updateFinishState search 1) tokens

/-- How a request finished: the kind of the reason and the length. -/
def outcome : Option FinishKind × Option Nat :=
  (r.finishedReason.map FinishReason.kind, r.finishedLen)

/-! ### The length limit -/

theorem finished_capFinishedLenAtMaxNewTokens (h : r.finished) :
    r.capFinishedLenAtMaxNewTokens.finished := by
  rw [capFinishedLenAtMaxNewTokens]
  split_ifs
  · rfl
  · exact h

theorem finished_of_checkStopRegexes {patterns : List Text}
    (h : r.checkStopRegexes search n patterns = (r', true)) : r'.finished := by
  induction patterns with
  | nil => simp [checkStopRegexes] at h
  | cons pattern patterns ih =>
    simp only [checkStopRegexes] at h
    rcases hs : search pattern (r.tailStr n) with - | found
    · rw [hs] at h; cases h
    rw [hs] at h
    simp only at h
    generalize (if found then r.locateStrStopFinishedLen
        (fun text => search pattern text == some true) n true
      else if 1 < n then r.locateStrStopFinishedLen
        (fun text => search pattern text == some true) n false
      else none) = len at h
    rcases len with - | m
    · exact ih h
    · cases h; rfl

theorem finished_of_checkStrBasedFinish
    (h : r.checkStrBasedFinish search n = (r', true)) : r'.finished := by
  rw [checkStrBasedFinish] at h
  rcases hs : r.checkStopStrs n with - | r₁
  · rw [hs] at h
    exact r.finished_of_checkStopRegexes search h
  · rw [hs] at h
    cases h
    obtain ⟨s, -, rfl⟩ := Option.map_eq_some_iff.mp hs
    rfl

theorem finished_of_checkTokenBasedFinish
    (h : r.checkTokenBasedFinish tokens = some r') : r'.finished := by
  rw [checkTokenBasedFinish] at h
  split_ifs at h
  obtain ⟨i, -, h⟩ := Option.bind_eq_some_iff.mp h
  obtain ⟨t, -, rfl⟩ := Option.map_eq_some_iff.mp h
  rfl

theorem finished_of_checkVocabBoundaryFinish
    (h : r.checkVocabBoundaryFinish tokens = some r') : r'.finished := by
  obtain ⟨i, -, rfl⟩ := Option.map_eq_some_iff.mp h
  rfl

/-- **A request that `update_finish_state` leaves unfinished is below its length limit.** -/
theorem length_lt_of_unfinished (h : r.updateFinishState search n = r')
    (hf : r'.finished = false) : r'.outputIds.length < r'.samplingParams.maxNewTokens := by
  have absurd_cap : ∀ q : Req, q.finished → q.capFinishedLenAtMaxNewTokens = r' → False := by
    rintro q hq rfl
    rw [q.finished_capFinishedLenAtMaxNewTokens hq] at hf
    cases hf
  simp only [updateFinishState] at h
  by_cases hfin : r.finished
  · rw [if_pos hfin] at h
    rw [← h, hfin] at hf
    cases hf
  rw [if_neg hfin] at h
  rcases hto : r.toFinish with - | reason
  swap
  · rw [hto] at h; subst h; cases hf
  rw [hto] at h
  rcases hv : r.checkVocabBoundaryFinish (pyLast r.outputIds n) with - | r₁
  swap
  · rw [hv] at h
    exact (absurd_cap r₁ (r.finished_of_checkVocabBoundaryFinish hv) h).elim
  rw [hv] at h
  rcases hs : r.checkStrBasedFinish search n with ⟨r₁, hit⟩
  rw [hs] at h
  cases hit with
  | true => exact (absurd_cap r₁ (r.finished_of_checkStrBasedFinish search hs) h).elim
  | false =>
    rw [if_neg Bool.false_ne_true] at h
    rcases ht : r₁.checkTokenBasedFinish (pyLast r.outputIds n) with - | r₂
    swap
    · rw [ht] at h
      exact (absurd_cap r₂ (r₁.finished_of_checkTokenBasedFinish ht) h).elim
    rw [ht] at h
    split_ifs at h with hlen hg
    · subst h; cases hf
    · subst h; exact not_le.mp hlen
    · subst h; exact not_le.mp hlen

end Req

end SglangRuntime.Finish
