import SglangRuntime.Parser.Qwen3Coder.Chunks
import SglangRuntime.Parser.Qwen3Coder.OneShot

/-!
# Qwen3Coder — no text is lost

As long as no function is accepted, everything the streaming parser has consumed is either given
out or held as the beginning of a wrapper (`Lit`, `held`), so that at the end the text has come out
as it went in.  The whole-text parser puts a wrapper without accepted functions back together from
its spans.

The two parsers delimit wrappers each in its own way.  The whole-text parser counts nested wrappers
(`unquotedToolSpans`); the streaming parser takes the first closing tag outside a rejected function.
What stands inside a wrapper for the streaming parser is read off a reading of the text in which
every function is unknown (`Reads`), so that it does not depend on the tools.
-/

namespace SglangRuntime.Qwen3Coder

open Foundation List State Option

/-! ### Inside a wrapper -/

/-- Tools none of which is a function. -/
def noFunctions : Tools where
  tools := [{ isFunction := false, name := [] }]
  isStringSchema _ _ := false
  encodeValue _ _ value := some value

/-- Where the reading of a text stands: the state, and what is left. -/
inductive Reads (text : Text) : State → Text → Prop where
  | start : Reads text {} text
  | next {st st' : State} {w : Text} {n : Nat} {out : Output ToolCallItem} (h : Reads text st w)
      (hs : step noFunctions st w = .next st' n out) : Reads text st' (w.drop n)

/-- The function stands inside a wrapper that is not fenced, as the streaming parser reads it. -/
def OccursInWrapper (name text : Text) : Prop :=
  ∃ st rest, Reads text st (Tag.function.token ++ name ++ '>' :: rest) ∧ st.isInsideToolCall

/-- And as the parser of whole texts reads it. -/
def OccursInSpan (name text : Text) : Prop :=
  ∃ span ∈ (unquotedToolSpans (text.length + 1) true [] text).1,
    Tag.function.token ++ name ++ ['>'] <:+: span.content

/-! ### What is held -/

variable {tools : Tools} {st st' st₁ : State} {text t w s : Text} {n : Nat}
  {out : Output ToolCallItem} {tag : Tag} {opening closing : Tag} {body name : Text}
  {spans : List Span} {span : Span}

def held (st : State) : Text := st.pendingToolPrefix.getD []

/-- The states of a run in which no function was accepted. -/
structure Lit (st : State) : Prop where
  separator : st.pendingToolSeparator = none
  func : st.currentFuncName = none
  string : st.streamString = none
  fence : st.codeFence.isSome → st.isInsideToolCall = false
  outside : st.isInsideToolCall = false → st.pendingToolPrefix = none
  inside : st.isInsideToolCall → st.pendingToolPrefix ≠ none ∨ st.preserveToolWrapper
  preserved : st.preserveToolWrapper → st.pendingToolPrefix = none
  rejected : st.suppressCurrentCall → st.pendingToolPrefix = none

/-- The pass gives out what it consumes, behind what was held, or holds it. -/
def Conserves (st : State) (w : Text) (pass : Pass) : Prop :=
  ∀ st' n out, pass = .next st' n out →
    Lit st' ∧ out.calls = [] ∧ out.normalText ++ held st' = held st ++ w.take n

theorem Lit.shown (h : Lit st) (t : Text) : st.shown t = { normalText := t } := by
  rw [State.shown, h.separator]
  rfl

theorem literal_conserves (hl : Lit st₁) (hp : st₁.pendingToolPrefix = none)
    (hst : st.pendingToolPrefix = none) (ht : t <+: w) : Conserves st w (literal st₁ t) := by
  rintro st' n out h
  rw [literal_eq, hl.shown] at h
  cases h
  refine ⟨{ hl with separator := ?_ }, rfl, ?_⟩
  · rw [passed, hl.separator]
    rfl
  · rw [show held (st₁.passed t) = held st₁ from rfl, held, hp, held, hst,
      ← prefix_iff_eq_take.mp ht]
    exact append_nil t

theorem Lit.shows (h : Lit st) (hp : st.pendingToolPrefix = none) : st.shows := by
  rw [State.shows, h.func]
  rcases hin : st.isInsideToolCall with - | -
  · rfl
  · rw [(h.inside hin).resolve_left (fun hne => hne hp)]
    simp

section

variable (hl : Lit st)
include hl

theorem unparsed_conserves (ht : t <+: w) : Conserves st w (unparsed st t) := by
  rcases hp : st.pendingToolPrefix with - | pending
  · rw [unparsed_of_shows hp (hl.shows hp)]
    exact literal_conserves hl hp hp ht
  rintro st' n out h
  rw [unparsed_of_pending hp] at h
  cases h
  have hno {P : Prop} (h : st.pendingToolPrefix = none) : P := by
    rw [hp] at h
    cases h
  refine ⟨{ hl with
    outside := fun h => hno (hl.outside h)
    inside := fun _ => .inl (by rintro ⟨⟩)
    preserved := fun h => hno (hl.preserved h)
    rejected := fun h => hno (hl.rejected h) }, rfl, ?_⟩
  rw [held, held, hp, ← prefix_iff_eq_take.mp ht]
  rfl

theorem contentStep_conserves (hs : s <+: w) : Conserves st w (contentStep st s) := by
  rw [contentStep]
  split
  · rename_i hrun
    split_ifs with hp
    · rintro _ _ _ ⟨⟩
    refine unparsed_conserves hl (List.IsPrefix.trans ?_ hs)
    cases s with
    | nil => exact absurd rfl hp
    | cons c s =>
      have hc : c = '<' := by
        by_contra hne
        rw [takeWhile_cons_of_pos (by simpa using hne)] at hrun
        cases hrun
      rw [hc]
      exact prefix_append ['<'] s
  · exact unparsed_conserves hl (( takeWhile_prefix _).trans hs)

theorem rejectedTag_conserves {pass : Pass} (hs : s <+: w)
    (h : rejectedTag st s = some pass) : Conserves st w pass := by
  rw [rejectedTag] at h
  split at h
  · cases h
  rename_i hsup
  have hsup' : st.suppressCurrentCall := by simpa using hsup
  have hp := hl.rejected hsup'
  split at h
  · split at h
    · cases h
      rintro _ _ _ ⟨⟩
    · cases h
      exact literal_conserves (by exact { hl with }) hp hp (( take_prefix _ s).trans hs)
  · rename_i htag
    cases h
    exact literal_conserves (by exact { hl with rejected := fun _ => hp }) hp hp
      ((token_of_headTag htag).trans hs)
  · rename_i htag
    cases h
    exact literal_conserves (by exact { hl with }) hp hp ((token_of_headTag htag).trans hs)
  · rename_i htag
    split at h
    · cases h
    · cases h
      exact literal_conserves (by exact { hl with }) hp hp ((token_of_headTag htag).trans hs)
  · cases h

theorem toolCallStart_conserves (hf : st.codeFence = none)
    (htag : Tag.toolCall.token <+: w) : Conserves st w (toolCallStart st) := by
  intro st' n out h
  have hlit : ∀ st₁ : State, st₁.pendingToolSeparator = none → st₁.currentFuncName = none →
      st₁.streamString = none → st₁.codeFence = none → Lit ({ st₁ with
        pendingToolPrefix := some Tag.toolCall.token
        toolWrapperPrefix := Tag.toolCall.token
        suppressCurrentCall := false
        preserveToolWrapper := false
        isInsideToolCall := true }.advanceStream Tag.toolCall.token) :=
    fun st₁ h₁ h₂ h₃ h₄ =>
      { separator := h₁, func := h₂, string := h₃
        fence := fun h => absurd h (by rw [advanceStream]; simp [h₄])
        outside := by rintro ⟨⟩
        inside := fun _ => .inl (by rintro ⟨⟩)
        preserved := by rintro ⟨⟩
        rejected := by rintro ⟨⟩ }
  rw [toolCallStart] at h
  rcases hp : st.pendingToolPrefix with - | pending
  · rw [hp] at h
    cases h
    refine ⟨hlit _ hl.separator hl.func hl.string hf, rfl, ?_⟩
    rw [held, held, hp, ← prefix_iff_eq_take.mp htag]
    rfl
  · rw [hp] at h
    simp only [appendNormalText, hl.separator, passSeparator] at h
    cases h
    refine ⟨hlit { st with pendingToolSeparator := none } rfl hl.func hl.string hf, rfl, ?_⟩
    rw [held, held, hp, ← prefix_iff_eq_take.mp htag]
    rfl

theorem toolCallEnd_conserves (hin : st.isInsideToolCall)
    (hf : st.codeFence = none) (htag : Tag.toolCallEnd.token <+: w) :
    Conserves st w (toolCallEnd st) := by
  intro st' n out h
  have hfence {P : Prop} (h : st.codeFence.isSome) : P := by
    rw [hf] at h
    cases h
  rw [toolCallEnd] at h
  rcases hp : st.pendingToolPrefix with - | pending
  · have hpre := (hl.inside hin).resolve_left fun hne => hne hp
    rw [hp] at h
    simp only [hpre, if_true, appendNormalText, hl.separator, passSeparator] at h
    cases h
    refine ⟨{ hl with
      separator := rfl
      fence := fun h => hfence h
      outside := fun _ => hp
      inside := by rintro ⟨⟩
      preserved := by rintro ⟨⟩
      rejected := by rintro ⟨⟩ }, rfl, ?_⟩
    rw [held, held, hp, ← prefix_iff_eq_take.mp htag]
    exact append_nil _
  · rw [hp] at h
    simp only [appendNormalText, hl.separator, passSeparator] at h
    cases h
    refine ⟨{ hl with
      separator := rfl
      fence := fun h => hfence h
      outside := fun _ => rfl
      inside := by rintro ⟨⟩
      preserved := by rintro ⟨⟩
      rejected := by rintro ⟨⟩ }, rfl, ?_⟩
    rw [held, held, hp, ← prefix_iff_eq_take.mp htag]
    exact append_nil _

theorem functionEnd_conserves (htag : Tag.functionEnd.token <+: w) :
    Conserves st w (functionEnd st) := by
  intro st' n out h
  rw [functionEnd, if_pos (by rw [hl.func]; rfl)] at h
  rcases hu : unparsed st Tag.functionEnd.token with - | - | ⟨st₁, m, o⟩
  · cases hu
  · cases hu
  · obtain ⟨hl₁, hcalls, htext⟩ := unparsed_conserves hl htag st₁ m o hu
    cases hu
    cases h
    exact ⟨{ hl₁ with rejected := by rintro ⟨⟩ }, hcalls, htext⟩

/-- A function that is not declared. -/
theorem functionStart_conserves (hin : st.isInsideToolCall)
    (hdecl : tools.isDeclaredTool (t.dropLast.drop Tag.function.token.length) = false)
    (hf : st.codeFence = none) (ht : t <+: w) : Conserves st w (functionStart tools st t) := by
  intro st' n out h
  rw [functionStart] at h
  rw [if_neg (by rw [hdecl]; exact Bool.false_ne_true)] at h
  simp only [appendNormalText, hl.separator, passSeparator] at h
  cases h
  refine ⟨{ separator := rfl, func := rfl, string := hl.string
            fence := fun h => absurd h (by rw [advanceStream]; simp [hf])
            outside := fun _ => rfl
            inside := fun _ => .inr rfl
            preserved := fun _ => rfl
            rejected := fun _ => rfl }, rfl, ?_⟩
  rw [held, ← prefix_iff_eq_take.mp ht]
  refine (append_nil _).trans ?_
  rcases hpre : st.preserveToolWrapper with - | -
  · rcases hp : st.pendingToolPrefix with - | pending
    · rcases hl.inside hin with hne | hyes
      · exact absurd hp hne
      · rw [hpre] at hyes
        cases hyes
    · simp [held, hp]
  · simp [held, hl.preserved hpre]

end

/-- The pass accepts a function. -/
def Accepts (tools : Tools) (st : State) (s : Text) : Prop :=
  st.isInsideToolCall ∧ ∃ name rest,
    s = Tag.function.token ++ name ++ '>' :: rest ∧ tools.isDeclaredTool name

/-- The name of a function tag, and what follows the tag. -/
theorem functionTag_eq {k : Nat} (htag : headTag s = some .function) (hk : find ['>'] s = some k) :
    s = Tag.function.token ++ (s.take (k + 1)).dropLast.drop Tag.function.token.length ++
      '>' :: s.drop (k + 1) := by
  have hpre := token_of_headTag htag
  have hlt := find_angle_lt hk
  have hlen : Tag.function.token.length ≤ k := by
    by_contra hlt'
    have hmem : '>' ∈ Tag.function.token := by
      have hat := drop_eq_of_find hk
      obtain ⟨r, rfl⟩ := hpre
      rw [drop_append_of_le_length (by omega)] at hat
      rcases hd : Tag.function.token.drop k with - | ⟨c, d⟩
      · have := congrArg List.length hd
        rw [length_drop, length_nil] at this
        omega
      · rw [hd] at hat
        have hc : c = '>' := (List.cons.inj hat).1
        exact mem_of_mem_drop (hc ▸ hd ▸ mem_cons_self)
    exact absurd hmem (by decide)
  have htake : (s.take (k + 1)).dropLast = s.take k := by
    rw [dropLast_eq_take, length_take_of_le hlt, Nat.succ_sub_one, take_take,
      Nat.min_eq_left (Nat.le_succ k)]
  have hname : s.take k = Tag.function.token ++ (s.take k).drop Tag.function.token.length := by
    have hpre' : Tag.function.token <+: s.take k :=
      prefix_take_iff.mpr ⟨hpre, hlen⟩
    obtain ⟨r, hr⟩ := hpre'
    rw [← hr, drop_left]
  rw [htake, ← hname]
  exact (eq_of_find hk).trans (append_assoc _ _ _)

theorem boundRejected_lit (hl : Lit st) (s : Text) :
    Lit (boundRejected st s) ∧ held (boundRejected st s) = held st ∧
      (boundRejected st s).isInsideToolCall = st.isInsideToolCall ∧
      (boundRejected st s).codeFence = st.codeFence := by
  rw [boundRejected]
  split
  · exact ⟨{ hl with rejected := by rintro ⟨⟩ }, rfl, rfl, rfl⟩
  · exact ⟨hl, rfl, rfl, rfl⟩

/-- Without an accepted function the pass conserves the text, and the tools do not matter. -/
theorem tagStep_lit (hl : Lit st) (hf : st.codeFence = none) (hs : s <+: w)
    (hno : ¬ Accepts tools st s) :
    Conserves st w (tagStep tools st s) ∧ tagStep tools st s = tagStep noFunctions st s := by
  rw [tagStep, tagStep]
  split
  · rename_i pass hpass
    exact ⟨rejectedTag_conserves hl hs hpass, rfl⟩
  obtain ⟨hl', hheld, hin', hf'⟩ := boundRejected_lit hl s
  rw [hf] at hf'
  have hcons {pass : Pass} (h : Conserves (boundRejected st s) w pass) : Conserves st w pass := by
    intro st' n out hpass
    rw [← hheld]
    exact h st' n out hpass
  have hcontent := hcons (contentStep_conserves hl' hs)
  rw [frontStep, frontStep]
  split
  · exact ⟨hcontent, rfl⟩
  rename_i tag htag
  have hpre := (token_of_headTag htag).trans hs
  split
  · rename_i hcount
    cases tag with
    | toolCall => exact ⟨hcons (toolCallStart_conserves hl' hf' hpre), rfl⟩
    | toolCallEnd => exact ⟨hcons (toolCallEnd_conserves hl' (by simpa using hcount) hf' hpre), rfl⟩
    | functionEnd => exact ⟨hcons (functionEnd_conserves hl' hpre), rfl⟩
    | parameterEnd => exact ⟨hcontent, rfl⟩
    | parameter =>
      rw [markup, markup, hl'.func]
      exact ⟨hcontent, rfl⟩
    | function =>
      have hin : (boundRejected st s).isInsideToolCall := by simpa using hcount
      rw [markup, markup]
      split
      · exact ⟨by rintro _ _ _ ⟨⟩, rfl⟩
      rename_i k hk
      have hdecl : tools.isDeclaredTool
          ((s.take (k + 1)).dropLast.drop Tag.function.token.length) = false := by
        by_contra h
        exact hno ⟨hin'.symm.trans hin, _, _, functionTag_eq htag hk, by simpa using h⟩
      have hnone (name : Text) : noFunctions.isDeclaredTool name = false := rfl
      refine ⟨hcons (functionStart_conserves hl' hin hdecl hf' (( take_prefix _ s).trans hs)), ?_⟩
      rw [functionStart, functionStart]
      simp only [hdecl, hnone]
  · exact ⟨hcontent, rfl⟩

theorem step_lit (hl : Lit st) (hno : ¬ Accepts tools st w) :
    Conserves st w (step tools st w) ∧ step tools st w = step noFunctions st w := by
  rw [step, step, hl.string]
  simp only
  split
  · exact ⟨by rintro _ _ _ ⟨⟩, rfl⟩
  split
  · rename_i hne fence hf
    refine ⟨?_, rfl⟩
    have hin := hl.fence (by rw [hf]; rfl)
    have hp := hl.outside hin
    rw [fencedStep]
    split
    · split_ifs
      · exact literal_conserves hl hp hp (prefix_refl w)
      · rintro _ _ _ ⟨⟩
      · rintro st' n out h
        cases h
        refine ⟨{ hl with }, rfl, ?_⟩
        rw [take_zero, append_nil]
        rfl
    · exact literal_conserves (by exact { hl with fence := fun _ => hin }) hp hp ( take_prefix _ w)
  rename_i hne _ hf
  split
  · exact tagStep_lit hl hf (prefix_refl w) hno
  rename_i hin
  have hin' : st.isInsideToolCall = false := by simpa using hin
  have hp := hl.outside hin'
  split
  · exact tagStep_lit hl hf (prefix_refl w) hno
  · exact ⟨by rintro _ _ _ ⟨⟩, rfl⟩
  · exact ⟨literal_conserves (by exact { hl with string := rfl, fence := fun _ => hin' }) hp hp
      ( take_prefix _ w), rfl⟩
  · rename_i k _ _
    exact tagStep_lit hl hf ( take_prefix _ w) fun h => hin h.1

/-- A run that accepts nothing gives out or holds what it consumes. -/
theorem drain_lit (hfree : ∀ st w, Reads text st w → ¬ Accepts tools st w) (hr : Reads text st w)
    (hl : Lit st) : ∃ o st' r, (scanner tools).drain st w = some (o, st', r) ∧ Lit st' ∧
      o.calls = [] ∧ o.normalText ++ (held st' ++ r) = held st ++ w := by
  induction st, w using (scanner tools).drain_induct with
  | _ st w ih =>
    obtain ⟨hcons, heq⟩ := step_lit hl (hfree st w hr)
    rcases hs : step tools st w with - | - | ⟨st₁, n, out⟩
    · exact ⟨0, st, w, Scanner.drain_of_wait hs, hl, rfl, rfl⟩
    · rw [heq] at hs
      obtain ⟨func, param, value, hnone⟩ := fails_of_raise hs
      cases hnone
    · obtain ⟨hl₁, hcalls, htext⟩ := hcons st₁ n out hs
      obtain ⟨o, st', r, hd, hl', ho, hsum⟩ := ih st₁ n out hs (.next hr (heq ▸ hs)) hl₁
      refine ⟨out + o, st', r, ?_, hl', ?_, ?_⟩
      · rw [Scanner.drain_of_next hs, hd, prepend_some]
      · change out.calls ++ o.calls = []
        rw [hcalls, ho]
        rfl
      · change out.normalText ++ o.normalText ++ (held st' ++ r) = _
        rw [append_assoc, hsum, ← append_assoc, htext, append_assoc,
          take_append_drop]

theorem finish_lit (hl : Lit st) (rest : Text) :
    finish ⟨st, rest⟩ = { normalText := held st ++ rest } := by
  have hshow (t : Text) : (st.appendNormalText t).2 = t := by
    rw [appendNormalText, hl.separator]
    rfl
  rw [finish]
  split
  · rename_i hf
    rw [hshow, held, hl.outside (hl.fence hf)]
    rfl
  · rw [if_pos (by rw [hl.func]; rfl), hshow]
    rfl

/-- The streaming parser gives the text back. -/
theorem stream_lit (hfree : ∀ st w, Reads text st w → ¬ Accepts tools st w) {chunks : List Text}
    (h : chunks.flatten = text) :
    (stream tools chunks).map Output.observed =
      some { normalText := text, names := [], arguments := fun _ => [] } := by
  have hinit : Lit {} :=
    { separator := rfl, func := rfl, string := rfl, fence := fun h => (nomatch h)
      outside := fun _ => rfl, inside := fun h => (nomatch h), preserved := fun h => (nomatch h)
      rejected := fun h => (nomatch h) }
  obtain ⟨o, st, r, hd, hl, hcalls, htext⟩ := drain_lit hfree .start hinit
  have hone : stream tools [text] = some { normalText := text } := by
    rw [stream, streamFrom, parseStreamingIncrement, nil_append, hd]
    simp only [map_some, bind_some, streamFrom, finish_lit hl]
    refine congrArg some ?_
    change (⟨o.normalText ++ (held st ++ r), o.calls ++ []⟩ : Output ToolCallItem) = _
    rw [htext, hcalls]
    rfl
  have hcut : chunks.flatten = [text].flatten := by rw [h, flatten_singleton]
  rw [stream_observed tools hcut, hone]
  rfl

/-! ### Spans make up the text -/

def Span.whole (opening closing : Tag) (span : Span) : Text :=
  span.before ++ span.text opening closing

theorem matchingEnd_token {depth stop : Nat}
    (h : matchingEnd opening closing depth body = some stop) : closing.token <+: body.drop stop := by
  induction body generalizing depth stop with
  | nil => cases h
  | cons c body ih =>
    rw [matchingEnd] at h
    split at h
    · rename_i htag
      split at h
      · cases h
        exact token_of_headTag htag
      · obtain ⟨k, hk, rfl⟩ := map_eq_some_iff.mp h
        exact ih hk
    · obtain ⟨k, hk, rfl⟩ := map_eq_some_iff.mp h
      exact ih hk

theorem cutSpan_text (opening closing : Tag) (before body : Text) :
    (cutSpan opening closing before body).1.whole opening closing ++
      (cutSpan opening closing before body).2 = before ++ (opening.token ++ body) := by
  rw [cutSpan]
  split
  · rename_i stop hstop
    obtain ⟨r, hr⟩ := matchingEnd_token hstop
    have hdrop : body.drop (stop + closing.token.length) = r := by
      rw [← drop_drop, ← hr, drop_left]
    have hbody : body = body.take stop ++ (closing.token ++ r) := by
      rw [hr, take_append_drop]
    simp only [Span.whole, Span.text, hdrop, if_true, append_assoc]
    rw [← hbody]
  · simp [Span.whole, Span.text]

theorem structureSpans_text (opening closing : Tag) (fuel : Nat) (text : Text) :
    (structureSpans opening closing fuel text).1.flatMap (Span.whole opening closing) ++
      (structureSpans opening closing fuel text).2 = text := by
  induction fuel generalizing text with
  | zero => rfl
  | succ fuel ih =>
    rw [structureSpans]
    split
    · rfl
    · rename_i start hstart
      simp only [flatMap_cons, append_assoc]
      rw [ih, cutSpan_text, ← append_assoc]
      exact (eq_of_find hstart).symm

variable (fuel : Nat)

variable (b : Bool)

theorem unquotedToolSpans_text (skipped text : Text) :
    (unquotedToolSpans fuel b skipped text).1.flatMap (Span.whole .toolCall .toolCallEnd) ++
      (unquotedToolSpans fuel b skipped text).2 = skipped ++ text := by
  induction fuel generalizing b skipped text with
  | zero => rfl
  | succ fuel ih =>
    have hwrapper {start : Nat} (hstart : find Tag.toolCall.token text = some start) :
        (cutSpan .toolCall .toolCallEnd (skipped ++ text.take start)
            (text.drop (start + Tag.toolCall.token.length))).1.whole .toolCall .toolCallEnd ++
          (cutSpan .toolCall .toolCallEnd (skipped ++ text.take start)
            (text.drop (start + Tag.toolCall.token.length))).2 = skipped ++ text := by
      rw [cutSpan_text, append_assoc, ← append_assoc (text.take start)]
      exact congrArg (skipped ++ ·) (eq_of_find hstart).symm
    rw [unquotedToolSpans]
    split
    · rfl
    · rename_i start hstart _
      simp only [flatMap_cons, append_assoc]
      rw [ih, nil_append]
      exact hwrapper hstart
    · split
      · rename_i toolStart fenceStart fence length _ hle
        obtain ⟨start, hstart, -⟩ := (any_eq_true _ _).mp hle
        simp only [hstart, getD_some, flatMap_cons, append_assoc]
        rw [ih, nil_append]
        exact hwrapper hstart
      · split
        · rfl
        · rw [ih, append_assoc, take_append_drop]

/-! ### Wrappers without declared functions -/

/-- A span is in the text that the spans make up. -/
theorem infix_of_mem_spans {tail : Text}
    (htext : spans.flatMap (Span.whole opening closing) ++ tail = text) (h : span ∈ spans) :
    opening.token ++ span.content <:+: text := by
  obtain ⟨l, r, rfl⟩ := append_of_mem h
  rw [flatMap_append, flatMap_cons, Span.whole, Span.text] at htext
  refine ⟨l.flatMap (Span.whole opening closing) ++ span.before, (if span.closed then
    closing.token else []) ++ r.flatMap (Span.whole opening closing) ++ tail, ?_⟩
  simpa only [append_assoc] using htext

theorem parseFunction_of_undeclared
    (h : ∀ name, Tag.function.token ++ name ++ ['>'] <:+: Tag.function.token ++ body →
      tools.isDeclaredTool name = false) : parseFunction tools body = some none := by
  rw [parseFunction]
  split
  · rfl
  rename_i k hk
  have hdecl := h (body.take k) (by
    refine List.IsPrefix.isInfix ⟨body.drop (k + 1), ?_⟩
    exact congrArg (Tag.function.token ++ ·) (eq_of_find hk).symm)
  simp only [hdecl, Bool.false_eq_true, if_false]

theorem mapM_eq_some {α β : Type} {f : α → Option β} {g : α → β} {l : List α}
    (h : ∀ a ∈ l, f a = some (g a)) : l.mapM f = some (l.map g) := by
  induction l with
  | nil => rfl
  | cons a l ih =>
    obtain ⟨ha, hl⟩ := forall_mem_cons.mp h
    rw [mapM_cons, ha, ih hl]
    rfl

theorem remaining_of_none (span : Span) :
    span.remaining (span.functions.1.map fun _ => none) = span := by
  have htext : span.functions.1.flatMap (Span.whole .function .functionEnd) ++ span.functions.2 =
      span.content := structureSpans_text _ _ _ _
  have hzip (l : List Span) : l.zip (l.map fun _ => (none : Option (Text × Text))) =
      l.map fun f => (f, none) := by
    induction l with
    | nil => rfl
    | cons f l ih => rw [map_cons, zip_cons_cons, ih, map_cons]
  rw [Span.remaining, hzip, flatMap_map]
  exact congrArg (fun t => { span with content := t }) htext

theorem parseSpan_of_undeclared (index : Nat)
    (h : ∀ name, Tag.function.token ++ name ++ ['>'] <:+: span.content →
      tools.isDeclaredTool name = false) :
    parseSpan tools index none span =
      some (none, { normalText := span.whole .toolCall .toolCallEnd }) := by
  have hparsed : span.functions.1.mapM (fun func => parseFunction tools func.content) =
      some (span.functions.1.map fun _ => none) := by
    refine mapM_eq_some fun func hfunc => parseFunction_of_undeclared fun name hname => ?_
    exact h name (hname.trans (infix_of_mem_spans (structureSpans_text _ _ _ _) hfunc))
  have hnone : (span.functions.1.map fun _ => (none : Option (Text × Text))).reduceOption = [] := by
    induction span.functions.1 with
    | nil => rfl
    | cons f l ih => exact ih
  rw [parseSpan, hparsed, map_some, hnone, remaining_of_none]
  rfl

theorem parseSpans_of_undeclared (index : Nat) (tail : Text)
    (h : ∀ span ∈ spans, ∀ name, Tag.function.token ++ name ++ ['>'] <:+: span.content →
      tools.isDeclaredTool name = false) :
    parseSpans tools index none spans tail =
      some { normalText := spans.flatMap (Span.whole .toolCall .toolCallEnd) ++ tail } := by
  induction spans generalizing index with
  | nil => rfl
  | cons span spans ih =>
    obtain ⟨hspan, hspans⟩ := forall_mem_cons.mp h
    rw [parseSpans, parseSpan_of_undeclared index hspan, bind_some]
    simp only [ih _ hspans, map_some, flatMap_cons, append_assoc]
    rfl

theorem rest_of_not_closed {before : Text}
    (h : (cutSpan opening closing before body).1.closed = false) :
    (cutSpan opening closing before body).2 = [] := by
  rw [cutSpan] at h ⊢
  split at h
  · cases h
  · rfl

theorem unquotedToolSpans_nil :
    unquotedToolSpans fuel b [] [] = ([], []) := by
  cases fuel <;> rfl

/-- A span that is not closed is the last one. -/
theorem unquotedToolSpans_filter (skipped text : Text) :
    (unquotedToolSpans fuel b skipped text).1.filter Span.closed ++
      (unquotedToolSpans fuel b skipped text).1.filter (!·.closed) =
        (unquotedToolSpans fuel b skipped text).1 := by
  induction fuel generalizing b skipped text with
  | zero => rfl
  | succ fuel ih =>
    have hcons (before body : Text) :
        let r := cutSpan .toolCall .toolCallEnd before body
        let spans := r.1 :: (unquotedToolSpans fuel false [] r.2).1
        spans.filter Span.closed ++ spans.filter (!·.closed) = spans := by
      simp only
      rcases hc : (cutSpan .toolCall .toolCallEnd before body).1.closed with - | -
      · rw [rest_of_not_closed hc, unquotedToolSpans_nil]
        simp [hc]
      · rw [filter_cons_of_pos hc, filter_cons_of_neg (by simp [hc]), cons_append, ih]
    rw [unquotedToolSpans]
    split
    · rfl
    · exact hcons _ _
    · split
      · exact hcons _ _
      · split
        · rfl
        · exact ih _ _ _

/-- The parser of whole texts gives the text back. -/
theorem detectAndParse_lit
    (h : ∀ span ∈ (unquotedToolSpans (text.length + 1) true [] text).1, ∀ name,
      Tag.function.token ++ name ++ ['>'] <:+: span.content → tools.isDeclaredTool name = false) :
    detectAndParse tools text = { normalText := text } := by
  have htext := unquotedToolSpans_text (text.length + 1) true [] text
  have hfilter := unquotedToolSpans_filter (text.length + 1) true [] text
  rw [detectAndParse]
  split
  · rfl
  set spans := (unquotedToolSpans (text.length + 1) true [] text).1
  simp only
  rcases hany : spans.any Span.closed with - | -
  · simp only [Bool.false_eq_true, if_false]
    rw [parseSpans_of_undeclared 0 _ h, htext]
    rfl
  simp only [if_true]
  rw [parseSpans_of_undeclared 0 _ fun span hspan => h span (mem_of_mem_filter hspan)]
  have hwhole : (fun s : Span => s.before ++ s.text .toolCall .toolCallEnd) =
    Span.whole .toolCall .toolCallEnd := rfl
  rw [hwhole, ← append_assoc, ← flatMap_append, hfilter, htext]
  rfl

/-! ### Nothing is lost -/

theorem Reads.suffix (h : Reads text st w) : w <:+ text := by
  induction h with
  | start => exact suffix_refl text
  | next _ _ ih => exact (drop_suffix _ _).trans ih

/-- What stands inside a wrapper stands in the text. -/
theorem OccursInWrapper.isInfix (h : OccursInWrapper name text) :
    Tag.function.token ++ name ++ ['>'] <:+: text := by
  obtain ⟨st, rest, hr, -⟩ := h
  refine List.IsInfix.trans ?_ hr.suffix.isInfix
  exact ⟨[], rest, by simp⟩

theorem OccursInSpan.isInfix (h : OccursInSpan name text) :
    Tag.function.token ++ name ++ ['>'] <:+: text := by
  obtain ⟨span, hspan, hin⟩ := h
  exact (hin.trans (suffix_append _ _).isInfix).trans
    (infix_of_mem_spans (unquotedToolSpans_text _ _ _ _) hspan)

/-- A wrapper with a function that is not declared. -/
def unknownCall : Text :=
  Tag.toolCall.token ++ Tag.function.token ++ ['g', '>'] ++ Tag.functionEnd.token ++
    Tag.toolCallEnd.token

theorem isDeclaredTool_eq (hne : tools.tools ≠ []) (hfwd : tools.forwardUnknownTools = false)
    (name : Text) : tools.isDeclaredTool name = tools.toolNameKnown name := by
  rw [Tools.isDeclaredTool, hfwd, Bool.or_false, isEmpty_eq_false_iff.mpr hne, Bool.false_or]

/-- **No text is lost**: where there are tools and unknown ones are not forwarded, a text in which
no function with a declared name stands inside an unfenced wrapper comes out of the streaming
parser as it is, however it is cut, and without a call; and likewise out of the parser of whole
texts.  For each parser, inside a wrapper means what that parser takes for one. -/
theorem undeclared_text_unchanged (tools : Tools) (hne : tools.tools ≠ [])
    (hfwd : tools.forwardUnknownTools = false) (text : Text) :
    ((∀ name, tools.toolNameKnown name = true → ¬ OccursInWrapper name text) →
      ∀ chunks : List Text, chunks.flatten = text → (stream tools chunks).map Output.observed =
        some { normalText := text, names := [], arguments := fun _ => [] }) ∧
    ((∀ name, tools.toolNameKnown name = true → ¬ OccursInSpan name text) →
      detectAndParse tools text = { normalText := text }) := by
  refine ⟨fun hfree chunks hchunks => stream_lit (fun st w hr hacc => ?_) hchunks, fun hfree => ?_⟩
  · obtain ⟨hin, name, rest, rfl, hdecl⟩ := hacc
    rw [isDeclaredTool_eq hne hfwd] at hdecl
    exact hfree name hdecl ⟨st, rest, hr, hin⟩
  · refine detectAndParse_lit fun span hspan name hname => ?_
    rw [isDeclaredTool_eq hne hfwd]
    by_contra hknown
    exact hfree name (by simpa using hknown) ⟨span, hspan, hname⟩

theorem undeclared_text_unchanged_unknownCall :
    (stream oneTool (unknownCall.map ([·]))).map Output.observed =
      some { normalText := unknownCall, names := [], arguments := fun _ => [] } ∧
    detectAndParse oneTool unknownCall = { normalText := unknownCall } := by
  have hname {name : Text} (h : oneTool.toolNameKnown name = true)
      (hin : Tag.function.token ++ name ++ ['>'] <:+: unknownCall) : False := by
    have hf : name = ['f'] := by simpa [oneTool, Tools.toolNameKnown, eq_comm] using h
    rw [hf] at hin
    exact absurd hin (by decide +kernel)
  have h := undeclared_text_unchanged oneTool (by decide) rfl unknownCall
  exact ⟨h.1 (fun name hknown hocc => hname hknown hocc.isInfix) _ (by decide +kernel),
    h.2 fun name hknown hocc => hname hknown hocc.isInfix⟩

/-- A declared function in a fence is no call either. -/
example : (stream oneTool ([['`', '`', '`', '\n'], quoteCall, ['\n', '`', '`', '`']])).any
    (fun out => out.calls = [] ∧ out.normalText =
      ['`', '`', '`', '\n'] ++ quoteCall ++ ['\n', '`', '`', '`']) := by
  decide +kernel

end SglangRuntime.Qwen3Coder
