import SglangRuntime.Parser.Reasoning

/-!
# Parser — reasoning separation and the cutting into increments

The streamed separation of a text is `separation`, however the text is cut, as long as its first
opener leads or comes after the block (`OpenerLeads`): while the block is open, what was passed on
is clear of both tokens (`Reading`), and after its end everything is passed on (`Closed`).

An opener inside a forced block is another matter.  It is taken out where it stands, so that what
came before it and what comes after are searched for the end token as one, if they are still
together; and `detect_and_parse` leaves it in.
-/

namespace SglangRuntime.Reasoning

open Foundation List Option

namespace Detector

variable {d : Detector} {st : State} {v c r n text currentText : Text} {token : Text} {i j : Nat}
  {chunks : List Text}

/-- No tool-start token, no continuation, contents passed on as they are, and tokens that neither
contain nor run into each other. -/
structure Plain (d : Detector) : Prop where
  tool : d.toolStartToken = none
  fresh : d.continueFinalMessage = false
  content : d.forceNonemptyContent = false
  start_not_in_end : ¬ d.thinkStartToken <:+: d.thinkEndToken
  end_not_in_start : ¬ d.thinkEndToken <:+: d.thinkStartToken
  no_overlap : ∀ x, x ≠ [] → x <:+ d.thinkStartToken → ¬ x <+: d.thinkEndToken

theorem thinkStartText_eq (d : Detector) : d.thinkStartText = d.thinkStartToken :=
  append_nil _

theorem Plain.start_ne_nil (h : d.Plain) : d.thinkStartToken ≠ [] := by
  intro e
  exact h.start_not_in_end (e ▸ nil_infix)

theorem Plain.end_ne_nil (h : d.Plain) : d.thinkEndToken ≠ [] := by
  intro e
  exact h.end_not_in_start (e ▸ nil_infix)

theorem Plain.toolStart (h : d.Plain) : d.toolStart = none := by
  rw [Detector.toolStart, h.tool]
  rfl

theorem Plain.contains_nil (h : token ≠ []) : contains token [] = false := by
  simp [contains, find, h]

theorem Plain.init (h : d.Plain) : d.init = { inReasoning := d.forceReasoning } := by
  have hp : d.previousContent = [] := by simp [previousContent, h.fresh]
  simp [Detector.init, hp, contains_nil h.start_ne_nil, contains_nil h.end_ne_nil]

/-- The text is a strict beginning of one of the tokens. -/
def Partial (d : Detector) (text : Text) : Prop :=
  (text <+: d.thinkStartToken ∧ d.thinkStartToken ≠ text) ∨
    (text <+: d.thinkEndToken ∧ d.thinkEndToken ≠ text)

theorem Plain.keepsBuffering_iff (h : d.Plain) : d.keepsBuffering text ↔ d.Partial text := by
  simp [keepsBuffering, h.toolStart, thinkStartText_eq, Partial]

/-- A strict beginning of a token contains neither token. -/
theorem Plain.not_infix_of_partial (h : d.Plain) (hp : d.Partial text) :
    ¬ d.thinkStartToken <:+: text ∧ ¬ d.thinkEndToken <:+: text := by
  have hlen : ∀ {token : Text}, text <+: token → token ≠ text → ¬ token <:+: text := by
    intro token hpre hne hin
    exact hne (hpre.eq_of_length (Nat.le_antisymm hpre.length_le hin.length_le)).symm
  rcases hp with ⟨hpre, hne⟩ | ⟨hpre, hne⟩
  · exact ⟨hlen hpre hne, fun hin => h.end_not_in_start (hin.trans hpre.isInfix)⟩
  · exact ⟨fun hin => h.start_not_in_end (hin.trans hpre.isInfix), hlen hpre hne⟩

theorem partial_nil (h : d.Plain) : d.Partial [] :=
  .inl ⟨ nil_prefix, h.start_ne_nil⟩

/-! ### Inside the block and after it -/

/-- The block is open, `v` is what came of it, and `r` what was passed on. -/
structure Reading (d : Detector) (v r : Text) (st : State) : Prop where
  inReasoning : st.inReasoning
  text : r ++ st.buffer = v
  clearEnd : Clear d.thinkEndToken r st.buffer
  noEnd : find d.thinkEndToken v = none
  start : st.strippedThinkStart = false →
    Clear d.thinkStartToken r st.buffer ∧ find d.thinkStartToken v = none
  held : d.streamReasoning → d.Partial st.buffer
  withheld : d.streamReasoning = false → r = []

/-- The block was closed by the first end token of `v`. -/
structure Closed (d : Detector) (v r n : Text) (st : State) : Prop where
  inReasoning : st.inReasoning = false
  stripped : st.strippedThinkStart
  text : ∃ j, find d.thinkEndToken v = some j ∧ r = v.take j ∧
    n ++ st.buffer = v.drop (j + d.thinkEndToken.length)

def Progress (d : Detector) (v r n : Text) (st : State) : Prop :=
  (d.Reading v r st ∧ n = []) ∨ d.Closed v r n st

section

variable (h : d.Plain)
include h

theorem Plain.holdback_eq : d.holdback st currentText =
    max (partialSuffix currentText d.thinkEndToken)
      (if st.strippedThinkStart then 0 else partialSuffix currentText d.thinkStartToken) := by
  cases hs : st.strippedThinkStart <;>
    simp [holdback, h.toolStart, hs, endsWithPartialToken, thinkStartText_eq]

/-- What is held back is a strict beginning of one of the tokens. -/
theorem Plain.partial_held :
    d.Partial (currentText.drop (currentText.length - d.holdback st currentText)) := by
  have hpart : ∀ token : Text, token ≠ [] →
      currentText.drop (currentText.length - partialSuffix currentText token) <+: token ∧
        token ≠ currentText.drop (currentText.length - partialSuffix currentText token) := by
    intro token hne
    obtain ⟨hpre, hlt⟩ := partialSuffix_starts currentText token hne
    refine ⟨hpre, fun e => ?_⟩
    have hlen := congrArg List.length e
    rw [length_drop] at hlen
    omega
  rw [h.holdback_eq]
  rcases le_total (partialSuffix currentText d.thinkEndToken)
    (if st.strippedThinkStart then 0 else partialSuffix currentText d.thinkStartToken) with hle | hle
  · rw [max_eq_right hle]
    split_ifs
    · simpa using partial_nil h
    · exact .inl (hpart _ h.start_ne_nil)
  · rw [max_eq_left hle]
    exact .inr (hpart _ h.end_ne_nil)

theorem Plain.holdback_le : d.holdback st currentText ≤ currentText.length := by
  rw [h.holdback_eq]
  refine max_le (partialSuffix_le_length _ _) ?_
  split_ifs
  · exact Nat.zero_le _
  · exact partialSuffix_le_length _ _

theorem Plain.separate_of_reasoning (hr : st.inReasoning) : d.separate st currentText =
      match find d.thinkEndToken currentText with
      | some endIdx =>
        ({ normalText := currentText.drop (endIdx + d.thinkEndToken.length)
           reasoningText := currentText.take endIdx },
          { st with buffer := [], inReasoning := false, strippedThinkStart := true })
      | none =>
        if d.streamReasoning then
          ({ reasoningText := currentText.take (currentText.length - d.holdback st currentText) },
            { st with
              buffer := currentText.drop (currentText.length - d.holdback st currentText) })
        else ({}, st) := by
  simp only [separate, h.toolStart, isSome_none, Bool.and_false, Bool.false_eq_true,
    if_false, hr, findThinkEnd, continueReasoning]
  cases find d.thinkEndToken currentText <;> rfl

/-- The part of the block that came with this increment is passed on. -/
theorem Plain.progress_separate (st : State) (hr : st.inReasoning)
    (hb : st.buffer = currentText) (hv : r ++ currentText = v)
    (hend : Clear d.thinkEndToken r currentText)
    (hstart : st.strippedThinkStart = false → Clear d.thinkStartToken r currentText ∧
      (find d.thinkEndToken v = none → find d.thinkStartToken v = none))
    (hw : d.streamReasoning = false → r = []) :
    d.Progress v (r ++ (d.separate st currentText).1.reasoningText)
      (d.separate st currentText).1.normalText (d.separate st currentText).2 := by
  have hfind : find d.thinkEndToken v = (find d.thinkEndToken currentText).map (r.length + ·) := by
    rw [← hv, hend.find_append]
  rw [h.separate_of_reasoning hr]
  cases hf : find d.thinkEndToken currentText with
  | some j =>
    refine .inr ⟨rfl, rfl, r.length + j, by rw [hfind, hf]; rfl, ?_, ?_⟩
    · rw [← hv, take_length_add_append]
    · rw [← hv, append_nil, Nat.add_assoc, drop_length_add_append]
  | none =>
    have hnone : find d.thinkEndToken v = none := by rw [hfind, hf]; rfl
    left
    cases hs : d.streamReasoning with
    | false =>
      simp only [Bool.false_eq_true, if_false, append_nil]
      refine ⟨⟨hr, by rw [hb, hv], by rwa [hb], hnone, fun hno => ?_, fun e => ?_, fun _ => hw hs⟩,
        trivial⟩
      · rw [hb]
        exact ⟨(hstart hno).1, (hstart hno).2 hnone⟩
      · rw [hs] at e
        cases e
    | true =>
      have hle : d.holdback st currentText ≤ currentText.length := h.holdback_le
      have hsplit := take_append_drop (currentText.length - d.holdback st currentText) currentText
      have hlen : (currentText.drop (currentText.length - d.holdback st currentText)).length =
          d.holdback st currentText := by
        rw [length_drop]
        omega
      -- each token that is looked for is held back at least as far as it has come
      have hemit : ∀ token, Clear token r currentText → find token currentText = none →
          partialSuffix currentText token ≤ d.holdback st currentText →
          Clear token (r ++ currentText.take (currentText.length - d.holdback st currentText))
            (currentText.drop (currentText.length - d.holdback st currentText)) := by
        intro token hc hno hk
        exact Clear.emit (by rwa [hsplit]) (by rwa [hsplit]) (by rwa [hsplit, hlen])
      simp only [if_true]
      refine ⟨⟨hr, by rw [append_assoc, hsplit, hv], ?_, hnone, fun hno => ?_,
        fun _ => h.partial_held, fun e => ?_⟩, trivial⟩
      · refine hemit _ hend hf ?_
        rw [h.holdback_eq]
        exact le_max_left _ _
      · have hsv := (hstart hno).2 hnone
        have hsc : find d.thinkStartToken currentText = none := by
          rw [← hv, (hstart hno).1.find_append, map_eq_none_iff] at hsv
          exact hsv
        refine ⟨hemit _ (hstart hno).1 hsc ?_, hsv⟩
        rw [h.holdback_eq, hno]
        exact le_max_right _ _
      · rw [hs] at e
        cases e

theorem Plain.increment_eq (newText : Text) :
    d.parseStreamingIncrement st newText = d.parseStreamingIncrementImpl st newText := by
  simp [parseStreamingIncrement, h.content]

theorem Plain.increment_of_partial (hp : d.Partial (st.buffer ++ c)) :
    d.parseStreamingIncrement st c = ({}, { st with buffer := st.buffer ++ c }) := by
  rw [h.increment_eq, parseStreamingIncrementImpl, if_pos (h.keepsBuffering_iff.mpr hp)]

/-- An increment that is looked at, with no opener to strip. -/
theorem Plain.increment_of_not_stripped (hp : ¬ d.Partial (st.buffer ++ c))
    (hno : d.stripOpener { st with buffer := st.buffer ++ c } (st.buffer ++ c) =
      (st.buffer ++ c, { st with buffer := st.buffer ++ c })) :
    d.parseStreamingIncrement st c =
      d.separate { st with buffer := st.buffer ++ c } (st.buffer ++ c) := by
  rw [h.increment_eq, parseStreamingIncrementImpl, if_neg (mt h.keepsBuffering_iff.mp hp), hno]

end

theorem stripOpener_of_stripped (hs : st.strippedThinkStart) :
    d.stripOpener st currentText = (currentText, st) := by
  rw [stripOpener]
  split
  · rfl
  · rw [if_pos hs]

theorem stripOpener_of_none (hs : find d.thinkStartToken currentText = none) :
    d.stripOpener st currentText = (currentText, st) := by
  rw [stripOpener, thinkStartText_eq, hs]

/-- An opener behind the end of the block is left alone. -/
theorem stripOpener_of_behind (hr : st.inReasoning)
    (hs : find d.thinkStartToken currentText = some i)
    (he : find d.thinkEndToken currentText = some j) (hji : j < i) :
    d.stripOpener st currentText = (currentText, st) := by
  have hle : ¬ i < j := by omega
  simp [stripOpener, thinkStartText_eq, hs, findThinkEnd, hr, he, hle]

/-- One more increment of an open block.  As long as no opener has been stripped, the first one, if
any, stands behind the first end token. -/
theorem Reading.increment (h : d.Plain) (hd : d.Reading v r st)
    (hcond : st.strippedThinkStart = false → ∀ i, find d.thinkStartToken (v ++ c) = some i →
      ∃ j < i, find d.thinkEndToken (v ++ c) = some j) :
    d.Progress (v ++ c) (r ++ (d.parseStreamingIncrement st c).1.reasoningText)
      (d.parseStreamingIncrement st c).1.normalText (d.parseStreamingIncrement st c).2 := by
  have hv : r ++ (st.buffer ++ c) = v ++ c := by rw [← append_assoc, hd.text]
  have hend := hd.clearEnd.append c
  have hstart := fun hs => (hd.start hs).1.append c
  by_cases hp : d.Partial (st.buffer ++ c)
  · obtain ⟨hnos, hnoe⟩ := h.not_infix_of_partial hp
    rw [← find_eq_none_iff] at hnos hnoe
    rw [h.increment_of_partial hp, append_nil]
    refine .inl ⟨⟨hd.inReasoning, hv, hend, ?_, fun hs => ⟨hstart hs, ?_⟩, fun _ => hp,
      hd.withheld⟩, rfl⟩
    · rw [← hv, hend.find_append, hnoe]
      rfl
    · rw [← hv, (hstart hs).find_append, hnos]
      rfl
  · have hno : d.stripOpener { st with buffer := st.buffer ++ c } (st.buffer ++ c) =
        (st.buffer ++ c, { st with buffer := st.buffer ++ c }) := by
      by_cases hs : st.strippedThinkStart
      · exact stripOpener_of_stripped hs
      rw [Bool.not_eq_true] at hs
      cases hf : find d.thinkStartToken (st.buffer ++ c) with
      | none => exact stripOpener_of_none hf
      | some i =>
        have hi : find d.thinkStartToken (v ++ c) = some (r.length + i) := by
          rw [← hv, (hstart hs).find_append, hf]
          rfl
        obtain ⟨j, hji, hj⟩ := hcond hs _ hi
        rw [← hv, hend.find_append, map_eq_some_iff] at hj
        obtain ⟨k, hk, rfl⟩ := hj
        exact stripOpener_of_behind hd.inReasoning hf hk (by omega)
    rw [h.increment_of_not_stripped hp hno]
    refine h.progress_separate _ hd.inReasoning rfl hv hend (fun hs => ⟨hstart hs, fun hne => ?_⟩)
      hd.withheld
    rw [← not_isSome_iff_eq_none, isSome_iff_exists]
    rintro ⟨i, hi⟩
    obtain ⟨j, -, hj⟩ := hcond hs i hi
    rw [hne] at hj
    cases hj

/-- Outside a block, with the opener accounted for, everything is passed on. -/
theorem Plain.increment_outside (h : d.Plain) (hr : st.inReasoning = false)
    (hs : st.strippedThinkStart ∨ find d.thinkStartToken (st.buffer ++ c) = none) :
    (d.parseStreamingIncrement st c).1.reasoningText = [] ∧
      (d.parseStreamingIncrement st c).1.normalText ++ (d.parseStreamingIncrement st c).2.buffer =
        st.buffer ++ c ∧
      (d.parseStreamingIncrement st c).2.inReasoning = false ∧
      (d.parseStreamingIncrement st c).2.strippedThinkStart = st.strippedThinkStart := by
  by_cases hp : d.Partial (st.buffer ++ c)
  · rw [h.increment_of_partial hp]
    exact ⟨rfl, rfl, hr, rfl⟩
  have hno : d.stripOpener { st with buffer := st.buffer ++ c } (st.buffer ++ c) =
      (st.buffer ++ c, { st with buffer := st.buffer ++ c }) :=
    hs.elim (fun e => stripOpener_of_stripped e) fun e => stripOpener_of_none e
  rw [h.increment_of_not_stripped hp hno]
  simp [separate, hr]

theorem Closed.increment (h : d.Plain) (hd : d.Closed v r n st) (c : Text) :
    d.Closed (v ++ c) (r ++ (d.parseStreamingIncrement st c).1.reasoningText)
      (n ++ (d.parseStreamingIncrement st c).1.normalText) (d.parseStreamingIncrement st c).2 := by
  obtain ⟨j, hj, hr, hn⟩ := hd.text
  obtain ⟨hreason, hnormal, hin, hstrip⟩ :=
    h.increment_outside (c := c) hd.inReasoning (.inl hd.stripped)
  have hlen := find_add_length_le hj
  refine ⟨hin, hstrip.trans hd.stripped, j, find_append_of_some hj c, ?_, ?_⟩
  · rw [hreason, append_nil, hr, take_append_of_le_length (by omega)]
  · rw [append_assoc, hnormal, ← append_assoc, hn, drop_append_of_le_length hlen]

/-! ### Whole streams -/

variable (P : Text → Text → Text → State → Prop)

/-- What holds of the text so far, of what was passed on of it and of the state after each increment
holds after all of them. -/
theorem feed_induct {u : Text} (chunks : List Text)
    (hstep : ∀ u r n st c, u ++ c <+: text → P u r n st →
      P (u ++ c) (r ++ (d.parseStreamingIncrement st c).1.reasoningText)
        (n ++ (d.parseStreamingIncrement st c).1.normalText) (d.parseStreamingIncrement st c).2)
    (hu : u ++ chunks.flatten = text) (h : P u r n st) :
    P text (r ++ (d.feed st chunks).1.reasoningText) (n ++ (d.feed st chunks).1.normalText)
      (d.feed st chunks).2 := by
  induction chunks generalizing u r n st with
  | nil =>
    simp only [flatten_nil, append_nil] at hu
    simpa [feed, hu] using h
  | cons c chunks ih =>
    rw [flatten_cons, ← append_assoc] at hu
    have := ih hu (hstep u r n st c ⟨_, hu⟩ h)
    simpa [feed, append_assoc] using this

theorem stream_induct (hinit : P [] [] [] d.init)
    (hstep : ∀ u r n st c, u ++ c <+: text → P u r n st →
      P (u ++ c) (r ++ (d.parseStreamingIncrement st c).1.reasoningText)
        (n ++ (d.parseStreamingIncrement st c).1.normalText) (d.parseStreamingIncrement st c).2)
    (hc : chunks.flatten = text) :
    P text (d.feed d.init chunks).1.reasoningText (d.feed d.init chunks).1.normalText
      (d.feed d.init chunks).2 := by
  simpa using feed_induct P chunks hstep hc hinit

/-- The separation of a block whose opener is accounted for. -/
def block (d : Detector) (v : Text) : StreamingParseResult :=
  match find d.thinkEndToken v with
  | some j => { normalText := v.drop (j + d.thinkEndToken.length), reasoningText := v.take j }
  | none => { reasoningText := if d.streamReasoning then v else d.stripLeadingThinkStart v }

/-- The separation of a text, however it is cut. -/
def separation (d : Detector) (text : Text) : StreamingParseResult :=
  if d.thinkStartToken <+: text then d.block (text.drop d.thinkStartToken.length)
  else if d.forceReasoning then d.block text
  else { normalText := text }

section

variable (h : d.Plain)
include h

theorem Plain.strip_of_partial (hp : d.Partial text) :
    d.stripLeadingThinkStart text = text := by
  rw [stripLeadingThinkStart, thinkStartText_eq, if_neg]
  exact fun hpre => (h.not_infix_of_partial hp).1 hpre.isInfix

theorem Progress.finish (hd : d.Progress v r n st) :
    ({ normalText := n ++ (d.finish st).1.normalText
       reasoningText := r ++ (d.finish st).1.reasoningText } : StreamingParseResult) = d.block v := by
  rcases hd with ⟨hd, rfl⟩ | hd
  · simp only [Detector.finish, hd.inReasoning, Bool.not_true, Bool.false_eq_true, if_false, h.content,
      block, hd.noEnd, append_nil]
    cases hs : d.streamReasoning with
    | true => simp [h.strip_of_partial (hd.held hs), hd.text]
    | false =>
      have ht := hd.text
      rw [hd.withheld hs, nil_append] at ht
      simp [hd.withheld hs, ht]
  · obtain ⟨j, hj, hr, hn⟩ := hd.text
    simp [Detector.finish, hd.inReasoning, block, hj, hr, hn]

/-- An opener that is stripped stays stripped. -/
theorem stripped_increment (hs : st.strippedThinkStart) (c : Text) :
    (d.parseStreamingIncrement st c).2.strippedThinkStart := by
  by_cases hp : d.Partial (st.buffer ++ c)
  · rw [h.increment_of_partial hp]
    exact hs
  rw [h.increment_of_not_stripped hp (stripOpener_of_stripped hs)]
  by_cases hr : st.inReasoning
  · have hr' : ({ st with buffer := st.buffer ++ c } : State).inReasoning := hr
    rw [h.separate_of_reasoning hr']
    cases find d.thinkEndToken (st.buffer ++ c) with
    | some j => rfl
    | none =>
      split_ifs <;> exact hs
  · simpa [separate, hr] using hs

theorem Progress.increment (hd : d.Progress v r n st)
    (hcond : st.strippedThinkStart = false → ∀ i, find d.thinkStartToken (v ++ c) = some i →
      ∃ j < i, find d.thinkEndToken (v ++ c) = some j) :
    d.Progress (v ++ c) (r ++ (d.parseStreamingIncrement st c).1.reasoningText)
      (n ++ (d.parseStreamingIncrement st c).1.normalText) (d.parseStreamingIncrement st c).2 := by
  rcases hd with ⟨hd, rfl⟩ | hd
  · exact hd.increment h hcond
  · exact .inr (hd.increment h c)

/-! ### The three kinds of texts -/

/-- A text without an opener, where reasoning is not forced. -/
theorem Plain.stream_of_absent (hf : d.forceReasoning = false)
    (hs : ¬ d.thinkStartToken <:+: text) (hc : chunks.flatten = text) :
    d.stream chunks = { normalText := text } := by
  have hrun := stream_induct (fun u r n st => st.inReasoning = false ∧ r = [] ∧ n ++ st.buffer = u)
    ⟨by rw [h.init, hf], rfl, by rw [h.init]; rfl⟩ ?_ hc
  · obtain ⟨hin, hr, hn⟩ := hrun
    simp [Detector.stream, Detector.finish, hin, hr, hn]
  rintro u r n st c hpre ⟨hin, rfl, rfl⟩
  have hno : find d.thinkStartToken (st.buffer ++ c) = none := by
    refine find_eq_none_iff.mpr fun hin => hs (hin.trans ?_)
    refine List.IsInfix.trans ?_ hpre.isInfix
    rw [append_assoc]
    exact (suffix_append _ _).isInfix
  obtain ⟨hreason, hnormal, hin', -⟩ := h.increment_outside hin (.inr hno)
  exact ⟨hin', hreason, by rw [append_assoc, hnormal, append_assoc]⟩

end

/-- The first opener of the text, if it stands before the first end token, stands at the front. -/
def OpenerLeads (d : Detector) (text : Text) : Prop :=
  ∀ i, find d.thinkStartToken text = some i →
    i = 0 ∨ ∃ j < i, find d.thinkEndToken text = some j

section

variable (h : d.Plain)
include h

/-- A text that begins without an opener, where reasoning is forced. -/
theorem Plain.stream_of_forced (hf : d.forceReasoning)
    (hs : ¬ d.thinkStartToken <+: text) (hl : d.OpenerLeads text)
    (hc : chunks.flatten = text) : d.stream chunks = d.block text := by
  refine Progress.finish h (stream_induct (d.Progress) ?_ ?_ hc)
  · rw [h.init, hf]
    refine .inl ⟨⟨rfl, rfl, .nil _ _, ?_, fun _ => ⟨.nil _ _, ?_⟩, fun _ => partial_nil h,
      fun _ => rfl⟩, rfl⟩
    · simp [find, h.end_ne_nil]
    · simp [find, h.start_ne_nil]
  · intro u r n st c hpre hd
    refine hd.increment h fun _ i hi => ?_
    obtain ⟨rest, rfl⟩ := hpre
    rcases hl i (find_append_of_some hi rest) with rfl | ⟨j, hji, hj⟩
    · exact absurd (find_zero_iff.mp (find_append_of_some hi rest)) hs
    -- the end token is complete where the opener is, which it does not contain
    refine ⟨j, hji, find_of_append hj ?_⟩
    have hilen := find_add_length_le hi
    by_contra hlt
    have hat := (find_eq_some_iff.mp (find_append_of_some hi rest)).2.1
    have hend := (find_eq_some_iff.mp hj).2.1
    exact h.start_not_in_end (isInfix_of_within hend hat hji.le (by omega))

/-- With this increment an opener is complete that stands before the end of the block, which is taken
out wherever it is. -/
theorem Plain.opens (hs : st.strippedThinkStart = false)
    (hi : find d.thinkStartToken (st.buffer ++ c) = some i)
    (hj : ∀ j, find d.thinkEndToken (st.buffer ++ c) = some j → i < j)
    (hv : removeFirst d.thinkStartToken (st.buffer ++ c) = v) :
    (d.parseStreamingIncrement st c).2.strippedThinkStart ∧
      d.Progress v (d.parseStreamingIncrement st c).1.reasoningText
        (d.parseStreamingIncrement st c).1.normalText (d.parseStreamingIncrement st c).2 := by
  have hp : ¬ d.Partial (st.buffer ++ c) := fun hp =>
    absurd (find_eq_none_iff.mpr (h.not_infix_of_partial hp).1) (by simp [hi])
  have hall : ((if st.inReasoning then find d.thinkEndToken (st.buffer ++ c) else none).all
      fun boundaryIdx => decide (i < boundaryIdx)) := by
    split_ifs
    · cases hf : find d.thinkEndToken (st.buffer ++ c) with
      | none => rfl
      | some j => simpa using hj j hf
    · rfl
  have heq : d.parseStreamingIncrement st c = d.separate
      { st with buffer := v, strippedThinkStart := true, inReasoning := true } v := by
    rw [h.increment_eq, parseStreamingIncrementImpl, if_neg (mt h.keepsBuffering_iff.mp hp)]
    simp only [stripOpener, thinkStartText_eq, hi, hs, Bool.false_eq_true, if_false, h.toolStart,
      isSome_none, Bool.and_false, findThinkEnd, or_none, hall, if_true, hv]
  rw [heq]
  constructor
  · rw [h.separate_of_reasoning rfl]
    cases find d.thinkEndToken v with
    | some j => rfl
    | none =>
      split_ifs <;> rfl
  · exact h.progress_separate _ rfl rfl (nil_append v) (.nil _ _) (by rintro ⟨⟩) fun _ => rfl

/-- No end token stands at the front of a text that an opener leads. -/
theorem Plain.end_pos (hj : find d.thinkEndToken (d.thinkStartToken ++ v) = some j) : 0 < j := by
  refine Nat.pos_of_ne_zero ?_
  rintro rfl
  rcases prefix_or_prefix_of_prefix (find_zero_iff.mp hj) (prefix_append _ v) with hp | hp
  · exact h.end_not_in_start hp.isInfix
  · exact h.start_not_in_end hp.isInfix

/-- A text that begins with an opener. -/
theorem Plain.stream_of_leading (hs : d.thinkStartToken <+: text)
    (hc : chunks.flatten = text) :
    d.stream chunks = d.block (text.drop d.thinkStartToken.length) := by
  have hrun := stream_induct (d := d) (fun u r n st =>
    (u.length < d.thinkStartToken.length ∧ r = [] ∧ n = [] ∧ st.buffer = u ∧
      st.strippedThinkStart = false) ∨
    ∃ v, u = d.thinkStartToken ++ v ∧ st.strippedThinkStart ∧ d.Progress v r n st) ?_ ?_ hc
  · rcases hrun with ⟨hlen, -⟩ | ⟨v, hv, -, hd⟩
    · exact absurd hs.length_le (by omega)
    · rw [hv, drop_left]
      exact hd.finish h
  · refine .inl ⟨length_pos_of_ne_nil h.start_ne_nil, rfl, rfl, ?_, ?_⟩ <;> rw [h.init]
  · rintro u r n st c hpre (⟨hlen, rfl, rfl, rfl, hst⟩ | ⟨v, rfl, hst, hd⟩)
    · rcases Nat.lt_or_ge (st.buffer ++ c).length d.thinkStartToken.length with hlt | hge
      · have hstart := prefix_of_prefix_length_le hpre hs hlt.le
        have hp : d.Partial (st.buffer ++ c) := .inl ⟨hstart, fun e => by rw [e] at hlt; omega⟩
        rw [h.increment_of_partial hp]
        exact .inl ⟨hlt, rfl, rfl, rfl, hst⟩
      · obtain ⟨v, hv⟩ := prefix_of_prefix_length_le hs hpre hge
        have hz := find_zero_iff.mpr (prefix_append d.thinkStartToken v)
        obtain ⟨hst', hd⟩ := h.opens (v := v) hst (hv ▸ hz) (fun j hj => h.end_pos (hv ▸ hj))
          (by simp [← hv, removeFirst, hz])
        exact .inr ⟨v, hv.symm, hst', hd⟩
    · refine .inr ⟨v ++ c, append_assoc _ _ _, stripped_increment h hst c,
        hd.increment h fun e => ?_⟩
      rw [hst] at e
      cases e

/-- **A text whose first opener leads is separated in the same way however it is cut.** -/
theorem Plain.stream_eq_separation
    (hdom : d.forceReasoning = false → d.thinkStartToken <+: text ∨ ¬ d.thinkStartToken <:+: text)
    (hl : d.OpenerLeads text) (hc : chunks.flatten = text) :
    d.stream chunks = d.separation text := by
  rw [separation]
  split_ifs with hs hf
  · exact h.stream_of_leading hs hc
  · exact h.stream_of_forced hf hs hl hc
  · rw [Bool.not_eq_true] at hf
    exact h.stream_of_absent hf ((hdom hf).resolve_left hs) hc

/-! ### At once -/

/-- `detect_and_parse` of a text that is in a block. -/
theorem Plain.detectAndParse_of_block
    (hin : (d.forceReasoning || contains d.thinkStartToken text))
    (hv : stripWhile d.thinkStartToken (text.length + 1) text = v) (hno : ¬ d.thinkStartToken <+: v) :
    d.detectAndParse d.init text = d.block v := by
  have hp : d.previousContent = [] := by simp [previousContent, h.fresh]
  simp only [detectAndParse, maybeApplyForceNonemptyContent, h.content, Bool.false_and,
    Bool.false_eq_true, if_false, detectAndParseImpl, h.init, hin, Bool.not_true, thinkStartText_eq,
    hv, h.tool, isSome_none, Bool.and_false, findThinkEnd, hp, contains_nil h.end_ne_nil, block,
    stripLeadingThinkStart, hno, ite_self]
  cases find d.thinkEndToken v <;> rfl

end

theorem stripWhile_of_not (hs : ¬ token <+: text) (fuel : Nat) :
    stripWhile token (fuel + 1) text = text := by
  rw [stripWhile, if_neg hs]

/-- A text with at most one opener at the front. -/
theorem Plain.detectAndParse_eq_separation (h : d.Plain)
    (hdom : d.forceReasoning = false → d.thinkStartToken <+: text ∨ ¬ d.thinkStartToken <:+: text)
    (hone : ¬ d.thinkStartToken ++ d.thinkStartToken <+: text) :
    d.detectAndParse d.init text = d.separation text := by
  rw [separation]
  split_ifs with hs hf
  · obtain ⟨v, rfl⟩ := hs
    have hv : ¬ d.thinkStartToken <+: v := fun hv => hone ((prefix_append_right_inj _).mpr hv)
    have hcontains : contains d.thinkStartToken (d.thinkStartToken ++ v) := by
      rw [contains, find_zero_iff.mpr (prefix_append _ _)]
      rfl
    have hlen := length_pos_of_ne_nil h.start_ne_nil
    have hstrip : stripWhile d.thinkStartToken ((d.thinkStartToken ++ v).length + 1)
        (d.thinkStartToken ++ v) = v := by
      rw [stripWhile, if_pos (prefix_append _ _), drop_left, length_append]
      obtain ⟨k, hk⟩ := Nat.exists_eq_add_of_lt hlen
      rw [hk, show 0 + k + 1 + v.length = (k + v.length) + 1 by omega]
      exact stripWhile_of_not hv _
    rw [h.detectAndParse_of_block (by rw [hcontains, Bool.or_true]) hstrip hv, drop_left]
  · exact h.detectAndParse_of_block (by rw [hf, Bool.true_or]) (stripWhile_of_not hs _) hs
  · rw [Bool.not_eq_true] at hf
    have hno : contains d.thinkStartToken text = false := by
      rw [contains, find_eq_none_iff.mpr ((hdom hf).resolve_left hs)]
      rfl
    simp [detectAndParse, maybeApplyForceNonemptyContent, h.content, detectAndParseImpl, h.init, hf, hno]

/-! ### An opener inside the block -/

/-- The end token of a text comes after the first opener, or inside of it not at all. -/
theorem Plain.end_behind_start (h : d.Plain) (hi : find d.thinkStartToken text = some i)
    (hj : find d.thinkEndToken text = some j) (hij : i ≤ j) : i + d.thinkStartToken.length ≤ j := by
  have hstart := (find_eq_some_iff.mp hi).2.1
  have hend := (find_eq_some_iff.mp hj).2.1
  by_contra hlt
  rcases Nat.le_total (j + d.thinkEndToken.length) (i + d.thinkStartToken.length) with hle | hle
  · exact h.end_not_in_start (isInfix_of_within hstart hend hij hle)
  obtain ⟨k, rfl⟩ := Nat.exists_eq_add_of_le hij
  have hdrop : d.thinkStartToken.drop k <+: text.drop (i + k) := by
    rw [← drop_drop]
    exact hstart.drop k
  refine h.no_overlap (d.thinkStartToken.drop k) ?_ (drop_suffix k _)
    (prefix_of_prefix_length_le hdrop hend (by rw [length_drop]; omega))
  rw [Ne, drop_eq_nil_iff]
  omega

/-- A first opener that stands before the end of the block is taken out, wherever it is. -/
theorem Plain.stream_of_inner (h : d.Plain) (hi : find d.thinkStartToken text = some i)
    (hj : ∀ j, find d.thinkEndToken text = some j → i < j) :
    d.stream [text] = d.block (removeFirst d.thinkStartToken text) := by
  have hb : d.init.buffer ++ text = text := by rw [h.init]; rfl
  have hs : d.init.strippedThinkStart = false := by rw [h.init]
  have hd := (h.opens (c := text) hs (hb.symm ▸ hi) (hb.symm ▸ hj) (congrArg _ hb)).2
  rw [← hd.finish h]
  simp [Detector.stream, feed]

def size (ret : StreamingParseResult) : Nat := ret.normalText.length + ret.reasoningText.length

theorem size_block_of_some (hj : find d.thinkEndToken v = some j) :
    size (d.block v) + d.thinkEndToken.length = v.length := by
  have hlen := find_add_length_le hj
  simp only [block, hj, size, length_drop, length_take]
  omega

theorem size_block_le (d : Detector) (v : Text) : size (d.block v) ≤ v.length := by
  cases hj : find d.thinkEndToken v with
  | some j =>
    have := size_block_of_some hj
    omega
  | none =>
    simp only [block, hj, size, length_nil, Nat.zero_add]
    split_ifs
    · exact le_rfl
    rw [stripLeadingThinkStart]
    split_ifs
    · rw [length_drop]
      omega
    · exact le_rfl

/-- The two interfaces disagree about an opener inside the block: one drops it, the other keeps it. -/
theorem Plain.stream_ne_detectAndParse (h : d.Plain) (hf : d.forceReasoning)
    (hi : find d.thinkStartToken text = some i) (hpos : i ≠ 0)
    (hj : ∀ j < i, find d.thinkEndToken text ≠ some j) :
    d.stream [text] ≠ d.detectAndParse d.init text := by
  have hne : ∀ j, find d.thinkEndToken text = some j → i + d.thinkStartToken.length ≤ j := fun j hj' =>
    h.end_behind_start hi hj' (Nat.le_of_not_lt fun hlt => hj j hlt hj')
  have hs : ¬ d.thinkStartToken <+: text := by
    rw [← find_zero_iff, hi]
    exact fun e => hpos (Option.some.inj e)
  have hslen := length_pos_of_ne_nil h.start_ne_nil
  have hilen := find_add_length_le hi
  have hlen : (removeFirst d.thinkStartToken text).length + d.thinkStartToken.length = text.length := by
    simp only [removeFirst, hi, length_append, length_take, length_drop]
    omega
  have hstream := h.stream_of_inner hi fun j hj' => by have := hne j hj'; omega
  have hdetect := h.detectAndParse_of_block (by rw [hf, Bool.true_or])
    (stripWhile_of_not hs text.length) hs
  intro heq
  have hsize := congrArg size heq
  rw [hstream, hdetect] at hsize
  cases hend : find d.thinkEndToken text with
  | none =>
    have hle := size_block_le d (removeFirst d.thinkStartToken text)
    have htext : size (d.block text) = text.length := by
      simp [size, block, hend, stripLeadingThinkStart, thinkStartText_eq, hs]
    omega
  | some j =>
    -- the end token stands behind the opener, so it is found in both
    have hin : d.thinkEndToken <:+: removeFirst d.thinkStartToken text := by
      have hat := (find_eq_some_iff.mp hend).2.1
      obtain ⟨k, rfl⟩ := Nat.exists_eq_add_of_le (hne j hend)
      rw [← drop_drop] at hat
      simp only [removeFirst, hi]
      exact (hat.isInfix.trans (drop_suffix k _).isInfix).trans (suffix_append _ _).isInfix
    obtain ⟨k, hk⟩ : ∃ k, find d.thinkEndToken (removeFirst d.thinkStartToken text) = some k := by
      rw [← isSome_iff_exists, ← ne_none_iff_isSome]
      exact fun e => find_eq_none_iff.mp e hin
    have hblock := size_block_of_some hk
    have htext := size_block_of_some hend
    omega

/-- **Separation does not depend on how the text is cut, and agrees with `detect_and_parse`, exactly
when the first opener of the text leads or comes after the block.** -/
theorem Plain.stream_invariant_iff (h : d.Plain)
    (hdom : d.forceReasoning = false → d.thinkStartToken <+: text ∨ ¬ d.thinkStartToken <:+: text) :
    ((∀ chunks chunks', chunks.flatten = text → chunks'.flatten = text →
        d.stream chunks = d.stream chunks') ∧
      (¬ d.thinkStartToken ++ d.thinkStartToken <+: text → ∀ chunks, chunks.flatten = text →
        d.stream chunks = d.detectAndParse d.init text)) ↔ d.OpenerLeads text := by
  constructor
  · rintro ⟨-, hsame⟩ i hi
    by_contra hno
    rw [not_or] at hno
    have hpos : i ≠ 0 := hno.1
    have hs : ¬ d.thinkStartToken <+: text := by
      rw [← find_zero_iff, hi]
      exact fun e => hpos (Option.some.inj e)
    have hf : d.forceReasoning = true := by
      by_contra hf
      rcases hdom (Bool.not_eq_true _ ▸ hf) with hlead | habs
      · exact hs hlead
      · rw [← find_eq_none_iff, hi] at habs
        cases habs
    have hone : ¬ d.thinkStartToken ++ d.thinkStartToken <+: text := fun hone =>
      hs ((prefix_append _ _).trans hone)
    exact h.stream_ne_detectAndParse hf hi hpos (fun j hj hj' => hno.2 ⟨j, hj, hj'⟩)
      (hsame hone [text] (by simp))
  · intro hl
    refine ⟨fun chunks chunks' hc hc' => ?_, fun hone chunks hc => ?_⟩
    · rw [h.stream_eq_separation hdom hl hc, h.stream_eq_separation hdom hl hc']
    · rw [h.stream_eq_separation hdom hl hc, h.detectAndParse_eq_separation hdom hone]

/-- `<think>` and `</think>`, with reasoning forced. -/
def think : Detector :=
  { thinkStartToken := "<think>".toList, thinkEndToken := "</think>".toList, forceReasoning := true }

theorem think_plain : think.Plain where
  tool := rfl
  fresh := rfl
  content := rfl
  start_not_in_end := by decide +kernel
  end_not_in_start := by decide +kernel
  no_overlap := by
    have hall : ∀ x ∈ think.thinkStartToken.tails, x ≠ [] → ¬ x <+: think.thinkEndToken := by
      decide +kernel
    exact fun x hne hx => hall x ((mem_tails x _).mpr hx) hne

/-- An opener that stands inside an end token joins its halves when all comes at once, and does not
when it comes by characters; and an opener inside the block is kept by `detect_and_parse` only. -/
theorem think_stream_varies : think.stream ["x</thi<think>nk>y".toList] ≠
      think.stream ("x</thi<think>nk>y".toList.map fun char => [char]) ∧
    think.stream ["say <think> here</think>done".toList] =
      ⟨"done".toList, "say  here".toList⟩ ∧
    think.detectAndParse think.init "say <think> here</think>done".toList =
      ⟨"done".toList, "say <think> here".toList⟩ := by
  decide +kernel

theorem think_stream_invariant_quoted_later :
    ¬ think.thinkStartToken ++ think.thinkStartToken <+: "<think>plan</think>a <think>".toList ∧
      think.stream ("<think>plan</think>a <think>".toList.map fun char => [char]) =
        think.detectAndParse think.init "<think>plan</think>a <think>".toList := by
  have hl : think.OpenerLeads "<think>plan</think>a <think>".toList := by
    intro i hi
    have h0 : find think.thinkStartToken "<think>plan</think>a <think>".toList = some 0 := by
      decide +kernel
    exact .inl (Option.some.inj hi).symm
  have hone : ¬ think.thinkStartToken ++ think.thinkStartToken <+:
      "<think>plan</think>a <think>".toList := by decide +kernel
  refine ⟨hone, ((think_plain.stream_invariant_iff fun e => nomatch e).mpr hl).2 hone _ ?_⟩
  decide +kernel

end Detector

end SglangRuntime.Reasoning
