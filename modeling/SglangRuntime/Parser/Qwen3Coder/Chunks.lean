import SglangRuntime.Parser.Qwen3Coder.Model

/-!
# Qwen3Coder — the increments do not matter

A result is looked at through its `trace`: the normal text, and for every call its name and the
characters of its arguments, however the fragments were cut.  Seen so, the loop is a steady scanner
(`steady`), and the pieces of a text make no difference (`stream_eq`).

A pass on a text is the same pass on a longer text unless it gives out what it has of an open-ended
run: plain text, the lines of a fence or a string value.  For these, giving out a part and going on
meets the pass that takes the whole run (`drain_text`, `drain_literal_meet`, `drain_string`).
-/

namespace SglangRuntime.Qwen3Coder

open Foundation List State Bool

variable {tools : Tools} {st st' : State} {text new t u x s : Text} {n : Nat}
  {out : Output ToolCallItem} {b : Bool} {tag tag' : Tag} {fence : Fence} {c k : Nat}

/-! ### Tags and what follows them -/

theorem eq_of_token_le (h : tag.token <+: tag'.token) : tag = tag' := by
  revert h
  cases tag <;> cases tag' <;> decide

theorem token_eq_cons (tag : Tag) : ∃ r, tag.token = '<' :: r ∧ '<' ∉ r := by
  cases tag <;> exact ⟨_, rfl, by decide⟩

theorem mem_all (tag : Tag) : tag ∈ Tag.all := by
  cases tag <;> decide

theorem headTag_eq_some_iff : headTag text = some tag ↔ tag.token <+: text := by
  refine ⟨token_of_headTag, fun h => ?_⟩
  rcases hh : headTag text with - | tag'
  · have := find?_eq_none.mp hh tag (mem_all tag)
    simp [h] at this
  · have h' := token_of_headTag hh
    rcases prefix_or_prefix_of_prefix h h' with hp | hp
    · rw [eq_of_token_le hp]
    · rw [eq_of_token_le hp]

theorem headTag_eq_none_iff : headTag text = none ↔ ∀ tag, ¬ Tag.token tag <+: text := by
  rw [headTag, find?_eq_none]
  simp only [decide_eq_true_eq]
  exact ⟨fun h tag => h tag (mem_all tag), fun h tag _ => h tag⟩

theorem isPotentialTag_eq_false_iff :
    isPotentialTag text = false ↔ ∀ tag, ¬ text <+: Tag.token tag := by
  rw [isPotentialTag, any_eq_false]
  simp only [decide_eq_true_eq]
  exact ⟨fun h tag => h tag (mem_all tag), fun h tag _ => h tag⟩

theorem headTag_append (h : headTag text = some tag) (new : Text) :
    headTag (text ++ new) = some tag :=
  headTag_eq_some_iff.mpr ((headTag_eq_some_iff.mp h).trans (prefix_append _ _))

theorem isPotentialTag_append (h : isPotentialTag text = false) (new : Text) :
    isPotentialTag (text ++ new) = false :=
  isPotentialTag_eq_false_iff.mpr fun tag hp =>
    isPotentialTag_eq_false_iff.mp h tag ((prefix_append _ _).trans hp)

theorem headTag_append_of_none (h : headTag text = none) (hp : isPotentialTag text = false)
    (new : Text) : headTag (text ++ new) = none := by
  refine headTag_eq_none_iff.mpr fun tag htag => ?_
  rcases prefix_or_prefix_of_prefix htag (prefix_append text new) with h' | h'
  · exact headTag_eq_none_iff.mp h tag h'
  · exact isPotentialTag_eq_false_iff.mp hp tag h'

theorem headTag_of_ne {c : Char} (hc : c ≠ '<') : headTag (c :: text) = none := by
  refine headTag_eq_none_iff.mpr fun tag h => ?_
  obtain ⟨r, hr, -⟩ := token_eq_cons tag
  rw [hr, cons_prefix_cons] at h
  exact hc h.1.symm

/-! ### The ends of values -/

theorem valueEnding_eq_none (u : Unit) (h : headTag text = none) : valueEnding u text = none := by
  rw [valueEnding, h]

/-- The end of a value is where a tag begins. -/
theorem headTag_of_valueEnding {u : Unit} (h : valueEnding u text = some c) :
    ∃ tag, headTag text = some tag := by
  rcases hh : headTag text with - | tag
  · rw [valueEnding_eq_none u hh] at h
    cases h
  · exact ⟨tag, rfl⟩

theorem valueEnding_append {u : Unit} (h : valueEnding u text = some c) (new : Text) :
    valueEnding u (text ++ new) = some c := by
  obtain ⟨tag, htag⟩ := headTag_of_valueEnding h
  rw [valueEnding, headTag_append htag, ← htag]
  exact h

/-- A tag that is completed by what follows has no other tag behind its first character. -/
theorem valueEnding_append_of_none {u : Unit} (h : valueEnding u text = none) (hne : text ≠ [])
    (hangle : '<' ∈ text.tail) (new : Text) : valueEnding u (text ++ new) = none := by
  rcases hh : headTag text with - | tag
  · have hp : isPotentialTag text = false := isPotentialTag_eq_false_iff.mpr fun tag h' => by
      obtain ⟨r, hr, hno⟩ := token_eq_cons tag
      obtain ⟨c, text, rfl⟩ := exists_cons_of_ne_nil hne
      rw [hr, cons_prefix_cons] at h'
      exact hno (h'.2.subset hangle)
    exact valueEnding_eq_none u (headTag_append_of_none hh hp new)
  · rw [valueEnding, headTag_append hh, ← hh]
    exact h

theorem angle_mem_of_firstMatch
    (h : firstMatch (fun _ => ()) valueEnding () text = some (k, c)) : '<' ∈ text := by
  obtain ⟨tag, htag⟩ := headTag_of_valueEnding (test_of_firstMatch h)
  obtain ⟨r, hr, -⟩ := token_eq_cons tag
  have hpre := token_of_headTag htag
  rw [hr] at hpre
  exact mem_of_mem_drop (hpre.subset mem_cons_self)

/-- What follows a value that is ended does not matter. -/
theorem valueEnd_append {stop consume : Nat} (h : valueEnd text = some (stop, consume)) (new : Text) :
    valueEnd (text ++ new) = some (stop, consume) := by
  induction text generalizing stop with
  | nil => cases h
  | cons c text ih =>
    rw [valueEnd] at h ih ⊢
    rcases ht : valueEnding () (c :: text) with - | d
    · rw [firstMatch_cons_of_none ht, Option.map_eq_some_iff] at h
      obtain ⟨⟨k, d⟩, hk, heq⟩ := h
      cases heq
      have hnone := valueEnding_append_of_none ht (cons_ne_nil c text)
        (angle_mem_of_firstMatch hk) new
      rw [cons_append] at hnone ⊢
      rw [firstMatch_cons_of_none hnone, show firstMatch _ _ _ (text ++ new) = _ from ih hk]
      rfl
    · rw [firstMatch_cons_of_some ht] at h
      cases h
      exact firstMatch_cons_of_some (valueEnding_append ht new)

theorem token_length_le_of_valueEnding {u : Unit} (h : valueEnding u text = some c) :
    ∃ tag : Tag, tag.token <+: text ∧ valueEnding u tag.token = some c ∧ tag.token.length ≤ 12 := by
  obtain ⟨tag, htag⟩ := headTag_of_valueEnding h
  have hself : headTag tag.token = some tag := headTag_eq_some_iff.mpr (prefix_refl _)
  refine ⟨tag, token_of_headTag htag, ?_, by cases tag <;> decide⟩
  rw [valueEnding, hself, ← htag]
  exact h

/-- The end of a value that is not there yet begins near the end of what is there. -/
theorem lt_of_valueEnd_append {stop consume : Nat} (h : valueEnd text = none)
    (h' : valueEnd (text ++ new) = some (stop, consume)) : text.length < stop + 12 := by
  by_contra hle
  obtain ⟨tag, htag, hend, hlen⟩ := token_length_le_of_valueEnding (test_of_firstMatch h')
  rw [drop_append_of_le_length (by omega)] at htag
  have hpre : tag.token <+: text.drop stop :=
    prefix_of_prefix_length_le htag (prefix_append _ _) (by rw [length_drop]; omega)
  obtain ⟨r, hr⟩ := hpre
  have hnone := firstMatch_eq_none_iff.mp h stop (by omega)
  rw [← hr, valueEnding_append hend] at hnone
  cases hnone

theorem valueEnd_drop (text : Text) (hk : k ≤ text.length)
    (h : ∀ stop consume, valueEnd text = some (stop, consume) → k ≤ stop) :
    valueEnd text = (valueEnd (text.drop k)).map (Prod.map (k + ·) id) :=
  firstMatch_drop h hk

/-! ### Traces -/

inductive CallEvent where
  | name (toolIndex : Int) (funcName : Text)
  | char (toolIndex : Int) (c : Char)

def ToolCallItem.events (item : ToolCallItem) : List CallEvent :=
  item.name.toList.map (.name item.toolIndex) ++ item.parameters.map (.char item.toolIndex)

/-- The result without the cuts between its fragments. -/
def trace : Output ToolCallItem →+ Output CallEvent where
  toFun out := ⟨out.normalText, out.calls.flatMap ToolCallItem.events⟩
  map_zero' := rfl
  map_add' _ _ := congrArg (Output.mk _) flatMap_append

def tracer (tools : Tools) : Scanner Char State (Output CallEvent) := (scanner tools).map trace

theorem tracer_step (h : step tools st text = .next st' n out) :
    (tracer tools).step st text = .next st' n (trace out) := by
  change (step tools st text).map trace = _
  rw [h]
  rfl

/-- The pass is the same with more text behind it. -/
theorem drain_same (h : step tools st (text ++ new) = .next st' n out) (hn : n ≤ text.length) :
    (tracer tools).drain st (text ++ new) =
      prepend (trace out) ((tracer tools).drain st' (text.drop n ++ new)) := by
  rw [Scanner.drain_of_next (tracer_step h), drop_append_of_le_length hn]

/-! ### Literal text and unparsed text come in pieces -/

theorem passSeparator_append (separator : Option Text) (t u : Text) :
    passSeparator separator (t ++ u) =
      ((passSeparator (passSeparator separator t).1 u).1,
        (passSeparator separator t).2 ++ (passSeparator (passSeparator separator t).1 u).2) := by
  cases separator with
  | none => rfl
  | some held =>
    by_cases ht : (held ++ t).all isSpace
    · rw [show passSeparator (some held) t = (some (held ++ t), []) from if_pos ht]
      simp only [passSeparator, append_assoc, nil_append]
    · have htu : ¬ ((held ++ (t ++ u)).all isSpace) := by
        rw [← append_assoc, all_append, and_eq_true]
        exact fun h => ht h.1
      rw [passSeparator, if_neg htu, passSeparator, if_neg ht, ← append_assoc]
      rfl

namespace State

section

variable (st : State)

/-- The state behind a literal text. -/
def passed (consumed : Text) : State :=
  { st with
    pendingToolSeparator := (passSeparator st.pendingToolSeparator consumed).1
    streamAtLineStart := contextAfter isEol st.streamAtLineStart consumed }

def fenced (fence : Option Fence) (canClose : Bool) : State :=
  { st with codeFence := fence, codeFenceLineCanClose := canClose }

/-- What a literal text puts out. -/
def shown (consumed : Text) : Output ToolCallItem :=
  { normalText := (passSeparator st.pendingToolSeparator consumed).2 }

theorem passed_append (t u : Text) : st.passed (t ++ u) = (st.passed t).passed u := by
  simp only [passed, passSeparator_append, contextAfter_append]

theorem shown_append (t u : Text) : st.shown (t ++ u) = st.shown t + (st.passed t).shown u := by
  simp only [shown, passed, passSeparator_append]
  rfl

end

end State

theorem literal_eq (st : State) (text : Text) :
    literal st text = .next (st.passed text) text.length (st.shown text) := rfl

theorem literal_fenced (st : State) (fence : Option Fence) (b : Bool) (text : Text) :
    literal (st.fenced fence b) text =
      .next ((st.passed text).fenced fence b) text.length (st.shown text) := rfl

/-- Two literal passes meet one. -/
theorem drain_literal_meet (fence fence' : Option Fence) (b b' : Bool)
    (h : step tools st (t ++ u) = literal (st.fenced fence b) (t ++ x))
    (h' : step tools ((st.passed t).fenced fence' b') u = literal ((st.passed t).fenced fence b) x) :
    (tracer tools).drain st (t ++ u) =
      prepend (trace (st.shown t)) ((tracer tools).drain ((st.passed t).fenced fence' b') u) := by
  rw [literal_fenced, passed_append, shown_append] at h
  have h₁ := tracer_step h
  refine Scanner.drain_of_meet h₁ (tracer_step h') ?_
  rw [length_append, ← drop_drop, drop_left]

theorem unparsed_of_pending {pending : Text} (hp : st.pendingToolPrefix = some pending) (t : Text) :
    unparsed st t = .next
      ({ st with pendingToolPrefix := some (pending ++ t) }.advanceStream t) t.length 0 := by
  rw [unparsed, appendUnparsedText, hp]
  rfl

section

variable (hp : st.pendingToolPrefix = none)
include hp

theorem unparsed_of_shows (hshow : st.shows) (t : Text) :
    unparsed st t = literal st t := by
  rw [unparsed, appendUnparsedText, hp]
  rw [if_pos hshow]
  rfl

theorem unparsed_of_wrapper (hshow : ¬ st.shows)
    (hfunc : st.currentFuncName.isNone) (t : Text) :
    unparsed st t = .next
      ({ st with toolWrapperPrefix := st.toolWrapperPrefix ++ t }.advanceStream t) t.length 0 := by
  rw [unparsed, appendUnparsedText, hp]
  rw [if_neg hshow, if_pos hfunc]
  rfl

theorem unparsed_of_call (hshow : ¬ st.shows)
    (hfunc : ¬ st.currentFuncName.isNone) (t : Text) :
    unparsed st t = .next (st.advanceStream t) t.length 0 := by
  rw [unparsed, appendUnparsedText, hp]
  rw [if_neg hshow, if_neg hfunc]
  rfl

end

theorem unparsed_append {st₁ st₂ : State} {m : Nat} {o₁ o₂ : Output ToolCallItem}
    (h : unparsed st t = .next st₁ n o₁) (h' : unparsed st₁ u = .next st₂ m o₂) :
    unparsed st (t ++ u) = .next st₂ (n + m) (o₁ + o₂) := by
  rcases hp : st.pendingToolPrefix with - | pending
  · by_cases hshow : st.shows
    · rw [unparsed_of_shows hp hshow, literal_eq] at h ⊢
      cases h
      rw [unparsed_of_shows, literal_eq] at h'
      · cases h'
        rw [passed_append, shown_append, length_append]
      · exact hp
      · exact hshow
    · by_cases hfunc : st.currentFuncName.isNone
      · rw [unparsed_of_wrapper hp hshow hfunc] at h ⊢
        cases h
        rw [unparsed_of_wrapper] at h'
        · cases h'
          simp only [advanceStream, contextAfter_append, length_append, append_assoc]
          rfl
        · exact hp
        · exact hshow
        · exact hfunc
      · rw [unparsed_of_call hp hshow hfunc] at h ⊢
        cases h
        rw [unparsed_of_call] at h'
        · cases h'
          simp only [advanceStream, contextAfter_append, length_append]
          rfl
        · exact hp
        · exact hshow
        · exact hfunc
  · rw [unparsed_of_pending hp] at h ⊢
    cases h
    cases h'
    simp only [advanceStream, contextAfter_append, length_append, append_assoc]
    rfl

/-- What text without markup leaves as it is. -/
theorem unparsed_frame (h : unparsed st t = .next st' n out) :
    st'.streamString = st.streamString ∧ st'.codeFence = st.codeFence ∧
      st'.isInsideToolCall = st.isInsideToolCall ∧
      st'.streamAtLineStart = contextAfter isEol st.streamAtLineStart t := by
  have hst : st' = (st.appendUnparsedText t).1.advanceStream t := by
    cases h
    rfl
  rw [hst, appendUnparsedText]
  split
  · exact ⟨rfl, rfl, rfl, rfl⟩
  · split_ifs <;> exact ⟨rfl, rfl, rfl, rfl⟩

/-! ### The slice -/

variable (inside : Bool)

variable (atLineStart : Bool)

/-- How far the pass may look: outside a wrapper, up to the next fence. -/
def limit (text : Text) : Nat :=
  if inside then text.length
  else
    match streamFenceEvent atLineStart text with
    | none => text.length
    | some (k, _) => k

theorem limit_le (text : Text) :
    limit inside atLineStart text ≤ text.length := by
  rw [limit]
  split_ifs
  · exact le_rfl
  · split
    · exact le_rfl
    · rename_i h
      exact (lt_length_of_firstMatch h).le

theorem clearTo_limit (text : Text) :
    ClearTo isEol fenceTest (limit false atLineStart text) atLineStart text := by
  rw [limit, if_neg Bool.false_ne_true]
  split
  · rename_i h
    exact clearTo_of_none h _
  · rename_i h
    exact clearTo_of_firstMatch h

theorem le_limit (hk : k ≤ text.length)
    (h : inside = false → ClearTo isEol fenceTest k b text) : k ≤ limit inside b text := by
  rw [limit]
  split_ifs with hin
  · exact hk
  · split
    · exact hk
    · rename_i j e hj
      exact h (by simpa using hin) j e hj

theorem limit_append_le (text new : Text) :
    limit inside atLineStart text ≤ limit inside atLineStart (text ++ new) := by
  refine le_limit inside ?_ fun h => ?_
  · rw [length_append]
    exact (limit_le inside atLineStart text).trans (Nat.le_add_right _ _)
  · rw [h]
    exact (clearTo_limit atLineStart text).append fenceTest_append (limit_le _ _ _) new

theorem limit_append (h : inside = false → ClearTo isEol fenceTest t.length b (t ++ u)) :
    limit inside b (t ++ u) = t.length + limit inside (contextAfter isEol b t) u := by
  rw [limit, limit]
  split_ifs with hin
  · exact length_append
  · rw [streamFenceEvent, firstMatch_append (h (by simpa using hin)), streamFenceEvent]
    rcases firstMatch isEol fenceTest (contextAfter isEol b t) u with - | ⟨k, e⟩
    · exact length_append
    · rfl

theorem step_eq_tagStep (hs : st.streamString = none) (hf : st.codeFence = none)
    (hpos : 0 < limit st.isInsideToolCall st.streamAtLineStart text) :
    step tools st text =
      tagStep tools st (text.take (limit st.isInsideToolCall st.streamAtLineStart text)) := by
  have hne : text ≠ [] := by
    rintro rfl
    exact absurd (limit_le st.isInsideToolCall st.streamAtLineStart []) (Nat.not_le.mpr hpos)
  rw [step, hs]
  simp only [if_neg hne, hf]
  rw [limit] at hpos ⊢
  split_ifs at hpos ⊢ with hin
  · rw [take_length]
  rcases hev : streamFenceEvent st.streamAtLineStart text with - | ⟨k, e⟩
  · rw [take_length]
  · rw [hev] at hpos
    obtain ⟨k, rfl⟩ := Nat.exists_eq_succ_of_ne_zero (Nat.ne_of_gt hpos)
    rfl

/-! ### Runs of text -/

theorem takeWhile_cons_ne (h : s.takeWhile (· ≠ '<') ≠ []) : ∃ c r, s = c :: r ∧ c ≠ '<' := by
  cases s with
  | nil => exact absurd rfl h
  | cons c s =>
    refine ⟨c, s, rfl, ?_⟩
    rintro rfl
    exact h rfl

theorem tagStep_of_no_tag (h : headTag s = none) : tagStep tools st s = contentStep st s := by
  have hrej : rejectedTag st s = none := by
    rw [rejectedTag, h]
    split <;> rfl
  have hbound : boundRejected st s = st := by
    rw [boundRejected, h]
    simp
  rw [tagStep, hrej]
  simp only [hbound, frontStep, h]

theorem tagStep_of_run (h : s.takeWhile (· ≠ '<') ≠ []) :
    tagStep tools st s = unparsed st (s.takeWhile (· ≠ '<')) := by
  have htag : headTag s = none := by
    obtain ⟨c, r, rfl, hc⟩ := takeWhile_cons_ne h
    exact headTag_of_ne hc
  rw [tagStep_of_no_tag htag, contentStep]
  split
  · rename_i hnil
    exact absurd hnil h
  · rfl

/-- Plain text may be given out in pieces. -/
theorem drain_text (hs : st.streamString = none) (hf : st.codeFence = none) (ht : t ≠ [])
    (hangle : '<' ∉ t) (hclear : st.isInsideToolCall = false →
      ClearTo isEol fenceTest t.length st.streamAtLineStart (t ++ u))
    (h : unparsed st t = .next st' n out) :
    (tracer tools).drain st (t ++ u) = prepend (trace out) ((tracer tools).drain st' u) := by
  obtain ⟨hs', hf', hin', hline'⟩ := unparsed_frame h
  have hn := unparsed_consumes h
  set m := limit st'.isInsideToolCall st'.streamAtLineStart u with hm
  have hlimit : limit st.isInsideToolCall st.streamAtLineStart (t ++ u) = t.length + m := by
    rw [limit_append _ hclear, hm, hin', hline']
  have hrun : ((t ++ u).take (t.length + m)).takeWhile (· ≠ '<') =
      t ++ (u.take m).takeWhile (· ≠ '<') := by
    rw [take_length_add_append, takeWhile_append_of_pos]
    intro c hc
    have hne : c ≠ '<' := by
      rintro rfl
      exact hangle hc
    simpa using hne
  have hstep : step tools st (t ++ u) = unparsed st (t ++ (u.take m).takeWhile (· ≠ '<')) := by
    have hpos : 0 < t.length + m := Nat.add_pos_left (length_pos_iff.mpr ht) m
    rw [step_eq_tagStep hs hf (hlimit ▸ hpos), hlimit, tagStep_of_run, hrun]
    rw [hrun]
    exact append_ne_nil_of_left_ne_nil ht _
  rcases hx : (u.take m).takeWhile (· ≠ '<') with - | ⟨c, x⟩
  · rw [hx, append_nil, h] at hstep
    rw [Scanner.drain_of_next (tracer_step hstep), hn, drop_left]
  have hne : (u.take m).takeWhile (· ≠ '<') ≠ [] := by
    rw [hx]
    exact cons_ne_nil c x
  have hpos : 0 < m := by
    by_contra h0
    rw [Nat.eq_zero_of_not_pos h0, take_zero] at hne
    exact hne rfl
  have hstep' : step tools st' u = unparsed st' ((u.take m).takeWhile (· ≠ '<')) := by
    rw [step_eq_tagStep (hs'.trans hs) (hf'.trans hf) (hm ▸ hpos), ← hm, tagStep_of_run hne]
  rcases hu : unparsed st' ((u.take m).takeWhile (· ≠ '<')) with - | - | ⟨st₂, k, o⟩
  · cases hu
  · cases hu
  · rw [unparsed_append h hu] at hstep
    rw [hu] at hstep'
    have h₁ := tracer_step hstep
    rw [map_add] at h₁
    refine Scanner.drain_of_meet h₁ (tracer_step hstep') ?_
    rw [← drop_drop, hn, drop_left]

/-! ### A tag is the same tag with more text behind it -/

theorem take_append_of_le (hk : k ≤ s.length) : (s ++ x).take k = s.take k :=
  take_append_of_le_length hk

theorem contentStep_append {r : Text} (h : contentStep st ('<' :: r) ≠ .wait) (x : Text) :
    contentStep st ('<' :: r ++ x) = contentStep st ('<' :: r) := by
  have hrun (r : Text) : ('<' :: r).takeWhile (· ≠ '<') = [] := rfl
  rw [contentStep, hrun] at h
  split_ifs at h with hp
  · exact absurd rfl h
  · have hp' := isPotentialTag_append (not_eq_true _ ▸ hp) x
    rw [cons_append] at hp' ⊢
    rw [contentStep, contentStep, hrun, hrun]
    rw [if_neg hp, if_neg (by rw [hp']; exact false_ne_true)]

theorem rejectedTag_append (htag : headTag s = some tag) (h : rejectedTag st s ≠ some .wait)
    (x : Text) : rejectedTag st (s ++ x) = rejectedTag st s := by
  rw [rejectedTag, htag] at h
  rw [rejectedTag, rejectedTag, headTag_append htag, htag]
  by_cases hsup : (!st.suppressCurrentCall)
  · rw [if_pos hsup, if_pos hsup]
  rw [if_neg hsup] at h ⊢
  rw [if_neg hsup]
  cases tag with
  | function =>
    rcases hk : find ['>'] s with - | k
    · rw [hk] at h
      exact absurd rfl h
    · rw [find_append_of_some hk]
      simp only [take_append_of_le (find_angle_lt hk)]
  | _ => rfl

theorem boundRejected_append (htag : headTag s = some tag) (x : Text) :
    boundRejected st (s ++ x) = boundRejected st s := by
  rw [boundRejected, boundRejected, headTag_append htag, htag]

theorem parameterStep_append {func : Text} (h : parameterStep tools st func s ≠ .wait) (x : Text) :
    parameterStep tools st func (s ++ x) = parameterStep tools st func s := by
  rcases hk : find ['>'] s with - | k
  · rw [parameterStep, hk] at h
    exact absurd rfl h
  have hlt := find_angle_lt hk
  rw [parameterStep, hk] at h
  rw [parameterStep, parameterStep, find_append_of_some hk, hk]
  simp only [take_append_of_le hlt.le, take_append_of_le (Nat.succ_le_of_lt hlt),
    drop_append_of_le_length (Nat.succ_le_of_lt hlt)] at h ⊢
  by_cases hstring : tools.isStringSchema func ((s.take k).drop Tag.parameter.token.length)
  · rw [if_pos hstring, if_pos hstring]
  rw [if_neg hstring] at h ⊢
  rw [if_neg hstring]
  rcases hend : valueEnd (s.drop (k + 1)) with - | ⟨stop, consume⟩
  · rw [hend] at h
    exact absurd rfl h
  obtain ⟨hstop, hle⟩ := valueEnd_le hend
  rw [valueEnd_append hend]
  rw [length_drop] at hle
  simp only [take_append_of_le hstop.le,
    take_append_of_le (show k + 1 + (stop + consume) ≤ s.length by omega)]

theorem markup_append (htag : headTag s = some tag) (h : markup tools st s tag ≠ .wait) (x : Text) :
    markup tools st (s ++ x) tag = markup tools st s tag := by
  have hcons : ∃ r, s = '<' :: r := by
    obtain ⟨r, hr, -⟩ := token_eq_cons tag
    obtain ⟨r', rfl⟩ := token_of_headTag htag
    exact ⟨r ++ r', by rw [hr]; rfl⟩
  obtain ⟨r, rfl⟩ := hcons
  cases tag with
  | toolCall | toolCallEnd | functionEnd => rfl
  | function =>
    rw [markup] at h ⊢
    rcases hk : find ['>'] ('<' :: r) with - | k
    · rw [hk] at h
      exact absurd rfl h
    · rw [find_append_of_some hk, markup, hk]
      simp only [take_append_of_le (find_angle_lt hk)]
  | parameter =>
    rw [markup] at h ⊢
    rw [markup]
    rcases hfunc : st.currentFuncName with - | func
    · rw [hfunc] at h
      exact contentStep_append h x
    · rw [hfunc] at h
      exact parameterStep_append h x
  | parameterEnd => exact contentStep_append h x

/-- A pass that does not wait is the same with more text behind it, or it gives out text. -/
theorem tagStep_append (hs : s ≠ []) (h : tagStep tools st s ≠ .wait) (x : Text) :
    tagStep tools st (s ++ x) = tagStep tools st s ∨ s.takeWhile (· ≠ '<') ≠ [] := by
  obtain ⟨c, r, rfl⟩ := exists_cons_of_ne_nil hs
  by_cases hc : c = '<'
  · subst hc
    refine .inl ?_
    rcases htag : headTag ('<' :: r) with - | tag
    · rw [tagStep_of_no_tag htag] at h ⊢
      have hp : isPotentialTag ('<' :: r) = false := by
        by_contra hp
        refine h ?_
        exact if_pos (by simpa using hp)
      rw [tagStep_of_no_tag (headTag_append_of_none htag hp x), contentStep_append h x]
    · rw [tagStep] at h ⊢
      rw [tagStep]
      rcases hrej : rejectedTag st ('<' :: r) with - | pass
      · rw [hrej] at h
        rw [rejectedTag_append htag (by rw [hrej]; rintro ⟨⟩) x, hrej]
        simp only [boundRejected_append htag, frontStep, headTag_append htag, htag] at h ⊢
        split_ifs at h ⊢
        · exact markup_append htag h x
        · exact contentStep_append h x
      · rw [hrej] at h
        rw [rejectedTag_append htag (by rw [hrej]; exact fun heq => h (Option.some.inj heq)) x, hrej]
  · refine .inr ?_
    rw [takeWhile_cons_of_pos (by simpa using hc)]
    exact cons_ne_nil c _

theorem slice_ne_nil {inside : Bool} (hpos : 0 < limit inside b text) :
    text.take (limit inside b text) ≠ [] := by
  intro hnil
  have := congrArg List.length hnil
  rw [length_take_of_le (limit_le _ _ _), length_nil] at this
  omega

/-- The slice of the longer text begins with the slice. -/
theorem exists_slice_append (text new : Text) :
    ∃ x, (text ++ new).take (limit inside atLineStart (text ++ new)) =
      text.take (limit inside atLineStart text) ++ x := by
  obtain ⟨d, hd⟩ := Nat.exists_eq_add_of_le (limit_append_le inside atLineStart text new)
  refine ⟨((text ++ new).drop (limit inside atLineStart text)).take d, ?_⟩
  rw [hd, take_add, take_append_of_le (limit_le _ _ _)]

theorem drain_front (hs : st.streamString = none) (hf : st.codeFence = none)
    (hpos : 0 < limit st.isInsideToolCall st.streamAtLineStart text)
    (h : step tools st text = .next st' n out) (new : Text) :
    (tracer tools).drain st (text ++ new) =
      prepend (trace out) ((tracer tools).drain st' (text.drop n ++ new)) := by
  rw [step_eq_tagStep hs hf hpos] at h
  set k := limit st.isInsideToolCall st.streamAtLineStart text with hk
  have hle : k ≤ text.length := limit_le _ _ _
  have hpos' := hpos.trans_le (limit_append_le st.isInsideToolCall st.streamAtLineStart text new)
  obtain ⟨x, hx⟩ := exists_slice_append st.isInsideToolCall st.streamAtLineStart text new
  have hne : text.take k ≠ [] := slice_ne_nil hpos
  rcases tagStep_append hne (by rw [h]; nofun) x with hsame | hrun
  · have hsound := tagStep_sound tools (text.take k) hf
    rw [h] at hsound
    refine drain_same (n := n) ?_ (hsound.le.trans (length_take_le' _ _))
    rw [step_eq_tagStep hs hf hpos', hx, ← hk, hsame, h]
  rw [tagStep_of_run hrun] at h
  have hn := unparsed_consumes h
  obtain ⟨y, hy⟩ := ( takeWhile_prefix (p := (· ≠ '<')) (l := text.take k)).trans
    ( take_prefix k text)
  have hnk : ((text.take k).takeWhile (· ≠ '<')).length ≤ k :=
    ( takeWhile_prefix _).length_le.trans (length_take_le _ _)
  have hdrop : text.drop n = y := by
    rw [← hy, hn, drop_left]
  rw [hdrop]
  conv_lhs => rw [← hy, append_assoc]
  refine drain_text hs hf hrun (fun hmem => ?_) (fun hout => ?_) h
  · have := mem_takeWhile_imp hmem
    simp at this
  · rw [← append_assoc, hy]
    refine ClearTo.mono (ClearTo.append fenceTest_append ?_ hle new) hnk
    rw [hk, hout]
    exact clearTo_limit _ _

/-! ### Fences -/

theorem step_fenced (hs : st.streamString = none) (hf : st.codeFence = some fence)
    (hne : text ≠ []) : step tools st text = fencedStep st fence text := by
  rw [step, hs]
  simp only [if_neg hne, hf]

theorem fencedStep_of_end (hend : streamLineEnd text = some n) : fencedStep st fence text =
    literal (st.fenced (if st.codeFenceLineCanClose && isStreamFenceClose fence (text.take n)
      then none else some fence) true) (text.take n) := by
  rw [fencedStep, hend]
  rfl

theorem fencedStep_of_none (hend : streamLineEnd text = none) : fencedStep st fence text =
    if !st.codeFenceLineCanClose then literal st text
    else if couldBeStreamFenceClose fence text then .wait
    else .next (st.fenced st.codeFence false) 0 0 := by
  rw [fencedStep, hend]
  rfl

/-- In a line that cannot close the fence. -/
theorem fencedStep_of_shut (hf : st.codeFence = some fence) (h : st.codeFenceLineCanClose = false)
    (text : Text) : fencedStep st fence text =
      literal (st.fenced (some fence) (streamLineEnd text).isSome)
        (text.take ((streamLineEnd text).getD text.length)) := by
  rcases hend : streamLineEnd text with - | k
  · have hst : st.fenced (some fence) false = st := by rw [← hf, ← h]; rfl
    rw [fencedStep_of_none hend, if_pos (by rw [h]; rfl), Option.isSome_none, hst, Option.getD_none,
      take_length]
  · rw [fencedStep_of_end hend, h]
    rfl

/-- The line feed of a carriage return that came before it, in a fence. -/
theorem step_eol_fenced (st : State) (hs : st.streamString = none) (v : Text) :
    step tools (st.fenced (some fence) true) ('\n' :: v) =
      literal (st.fenced (some fence) true) ['\n'] := by
  have hend : streamLineEnd ('\n' :: v) = some 1 := by
    simpa [eolLength] using streamLineEnd_line (l := []) (e := '\n') (r := v) (by simp) rfl
  have hstep : step tools (st.fenced (some fence) true) ('\n' :: v) =
      fencedStep (st.fenced (some fence) true) fence ('\n' :: v) :=
    step_fenced hs rfl (cons_ne_nil _ _)
  rw [hstep, fencedStep_of_end hend, take_succ_cons, take_zero,
    isStreamFenceClose_eol rfl, Bool.and_false]
  rfl

/-- And outside of one. -/
theorem drain_eol_outside (st : State) (hs : st.streamString = none) (hf : st.codeFence = none)
    (hin : st.isInsideToolCall = false) (hp : st.pendingToolPrefix = none) (v : Text) :
    (tracer tools).drain st ('\n' :: v) =
      prepend (trace (st.shown ['\n'])) ((tracer tools).drain (st.passed ['\n']) v) := by
  have hshow : st.shows := by
    rw [shows, hin]
    rfl
  refine drain_text (t := ['\n']) (n := 1) hs hf (cons_ne_nil _ _) (by decide) (fun _ => ?_) ?_
  · exact clearTo_cons_iff.mpr ⟨fenceTest_cons_of_ne (by decide) (by decide) (by decide) _ _,
      fun k e _ => Nat.zero_le k⟩
  · exact unparsed_of_shows hp hshow _

/-- A carriage return at the end of the text that gets its line feed. -/
theorem drain_crlf {fence' : Option Fence} {v : Text} (hs : st.streamString = none)
    (hin : st.isInsideToolCall = false) (hp : st.pendingToolPrefix = none)
    (h : step tools st (text ++ '\n' :: v) = literal (st.fenced fence' true) (text ++ ['\n'])) :
    (tracer tools).drain st (text ++ '\n' :: v) = prepend (trace (st.shown text))
      ((tracer tools).drain ((st.passed text).fenced fence' true) ('\n' :: v)) := by
  cases fence' with
  | some fence => exact drain_literal_meet _ _ _ _ h (step_eol_fenced (st.passed text) hs v)
  | none =>
    rw [drain_eol_outside ((st.passed text).fenced none true) hs rfl hin hp, prepend_prepend]
    rw [literal_fenced, passed_append, shown_append] at h
    rw [Scanner.drain_of_next (tracer_step h), map_add]
    congr 2
    rw [length_append, ← drop_drop, drop_left]
    rfl

theorem eol_of_head (h : new.head? = some '\n') : ∃ v, new = '\n' :: v := by
  cases new with
  | nil => cases h
  | cons c v =>
    cases h
    exact ⟨v, rfl⟩

/-- The end of a line that begins in one text and ends in the next. -/
theorem streamLineEnd_append (hl : ∀ c ∈ text, isEol c = false) :
    streamLineEnd (text ++ new) = (streamLineEnd new).map (text.length + ·) := by
  rcases exists_line new with hnew | ⟨l, e, r, rfl, hnew, he⟩
  · rw [streamLineEnd_of_forall hnew,
      streamLineEnd_of_forall fun c hc => (mem_append.mp hc).elim (hl c) (hnew c)]
    rfl
  · rw [← append_assoc, streamLineEnd_line hnew he,
      streamLineEnd_line (fun c hc => (mem_append.mp hc).elim (hl c) (hnew c)) he,
      length_append, Option.map_some, Nat.add_assoc]

section

variable (hs : st.streamString = none)
include hs

theorem drain_fenced (hf : st.codeFence = some fence) (hv : Valid st)
    (hne : text ≠ []) (h : step tools st text = .next st' n out) (new : Text) :
    (tracer tools).drain st (text ++ new) =
      prepend (trace out) ((tracer tools).drain st' (text.drop n ++ new)) := by
  have hin := hv.outside (by rw [hf]; rfl)
  have hne' : text ++ new ≠ [] := append_ne_nil_of_left_ne_nil hne new
  rw [step_fenced hs hf hne] at h
  rcases exists_line text with hl | ⟨l, e, r, rfl, hl, he⟩
  · rw [fencedStep_of_none (streamLineEnd_of_forall hl)] at h
    split_ifs at h with hcan hcould
    · -- the line is given out as far as it has come
      cases h
      rw [drop_length, nil_append]
      rcases eq_or_ne new [] with rfl | hnew
      · have hstep : step tools st (text ++ []) = literal st text := by
          rw [append_nil, step_fenced hs hf hne,
            fencedStep_of_none (streamLineEnd_of_forall hl), if_pos hcan]
        rw [Scanner.drain_of_next (tracer_step hstep), drop_left]
      have hcan' : st.codeFenceLineCanClose = false := by simpa using hcan
      refine drain_literal_meet (some fence) st.codeFence (streamLineEnd new).isSome
        st.codeFenceLineCanClose (x := new.take ((streamLineEnd new).getD new.length)) ?_ ?_
      · rw [step_fenced hs hf hne', fencedStep_of_shut hf hcan', streamLineEnd_append hl,
          Option.isSome_map]
        rcases streamLineEnd new with - | k <;> simp [take_length_add_append]
      · have hs' : (st.passed text).streamString = none := hs
        exact (step_fenced hs' hf hnew).trans (@fencedStep_of_shut (st.passed text) _ hf hcan' new)
    · -- the line cannot close the fence, whatever comes
      cases h
      rw [drop_zero, map_zero, prepend_zero]
      have hstep : step tools (st.fenced st.codeFence false) (text ++ new) =
          fencedStep (st.fenced st.codeFence false) fence (text ++ new) := step_fenced hs hf hne'
      rcases hend : streamLineEnd (text ++ new) with - | k
      · have hcould' := couldBeStreamFenceClose_append (not_eq_true _ ▸ hcould) new
        have hnext : step tools st (text ++ new) = .next (st.fenced st.codeFence false) 0 0 := by
          rw [step_fenced hs hf hne', fencedStep_of_none hend, if_neg hcan,
            if_neg (by rw [hcould']; exact false_ne_true)]
        rw [Scanner.drain_of_next (tracer_step hnext), map_zero, prepend_zero, drop_zero]
      · have hopen : isStreamFenceClose fence ((text ++ new).take k) = false := by
          rw [streamLineEnd_append hl, Option.map_eq_some_iff] at hend
          obtain ⟨j, -, rfl⟩ := hend
          rw [take_length_add_append]
          exact isStreamFenceClose_append hl (not_eq_true _ ▸ hcould) _
        have h₁ : step tools st (text ++ new) = _ :=
          (step_fenced hs hf hne').trans (fencedStep_of_end hend)
        have h₂ : step tools (st.fenced st.codeFence false) (text ++ new) = _ :=
          hstep.trans (fencedStep_of_end hend)
        rw [hopen, Bool.and_false] at h₁ h₂
        rw [Scanner.drain_of_next (tracer_step h₁), Scanner.drain_of_next (tracer_step h₂)]
        rfl
  · -- a finished line
    have hend := streamLineEnd_line (r := r) hl he
    have hend' := streamLineEnd_line (r := r ++ new) hl he
    rw [← cons_append, ← append_assoc] at hend'
    rw [fencedStep_of_end hend] at h
    have hle := (streamLineEnd_le hend).2
    rcases eolLength_append e r new with heq | ⟨rfl, rfl, hnew, h₁, h₂⟩
    · refine drain_same (n := n) ?_ ?_
      · rw [heq] at hend'
        rw [step_fenced hs hf hne', fencedStep_of_end hend', take_append_of_le hle, h]
      · rw [literal_consumes h]
        exact length_take_le' _ _
    · obtain ⟨v, rfl⟩ := eol_of_head hnew
      have htake : (l ++ ['\r']).take (l.length + eolLength '\r' []) = l ++ ['\r'] := by
        rw [h₁]
        exact take_of_length_le (by simp)
      have htake' : (l ++ ['\r'] ++ '\n' :: v).take (l.length + eolLength '\r' ([] ++ '\n' :: v)) =
          l ++ ['\r'] ++ ['\n'] := by
        rw [h₂]
        simp [take_append]
      have hclose : isStreamFenceClose fence (l ++ ['\r'] ++ ['\n']) =
          isStreamFenceClose fence (l ++ ['\r']) := by
        refine isStreamFenceClose_congr ?_
        rw [append_assoc]
        exact (lineOf_line hl he).trans (lineOf_line hl he).symm
      rw [htake] at h
      cases h
      rw [drop_length, nil_append]
      refine drain_crlf hs hin (hv.pending hin) ?_
      rw [step_fenced hs hf hne', fencedStep_of_end hend', htake', hclose]
      rfl

theorem step_opening (hf : st.codeFence = none)
    (hin : st.isInsideToolCall = false)
    (hev : streamFenceEvent st.streamAtLineStart text = some (0, .opening fence n)) :
    step tools st text = literal (st.fenced (some fence) true) (text.take n) := by
  have hne : text ≠ [] := by
    rintro rfl
    cases hev
  rw [step]
  split
  · rename_i h
    rw [hs] at h
    cases h
  rw [if_neg hne]
  split
  · rename_i h
    rw [hf] at h
    cases h
  rw [if_neg (by simp [hin]), hev]
  rfl

/-- The line that opens a fence. -/
theorem drain_opening (hf : st.codeFence = none) (hv : Valid st)
    (hin : st.isInsideToolCall = false)
    (hev : streamFenceEvent st.streamAtLineStart text = some (0, .opening fence n)) (new : Text) :
    (tracer tools).drain st (text ++ new) = prepend (trace (st.shown (text.take n)))
      ((tracer tools).drain ((st.passed (text.take n)).fenced (some fence) true)
        (text.drop n ++ new)) := by
  have htest := test_of_firstMatch hev
  rw [take_zero, contextAfter_nil, drop_zero, fenceTest] at htest
  split_ifs at htest with hline
  have hle := lineEvent_opening_le htest
  obtain ⟨c, text, rfl⟩ := exists_cons_of_ne_nil (ne_nil_of_length_pos (hle.1.trans_le hle.2))
  have hev' {m : Nat} (h : lineEvent (c :: text ++ new) = some (.opening fence m)) :
      streamFenceEvent st.streamAtLineStart (c :: text ++ new) = some (0, .opening fence m) := by
    refine firstMatch_cons_of_some ?_
    rw [fenceTest, if_pos hline]
    exact h
  rcases lineEvent_opening_append htest new with hsame | ⟨rfl, hnew, hmore⟩
  · have h := @step_opening tools _ _ _ _ hs hf hin (hev' hsame)
    rw [take_append_of_le hle.2] at h
    rw [Scanner.drain_of_next (tracer_step h), length_take_of_le hle.2,
      drop_append_of_le_length hle.2]
    rfl
  · obtain ⟨v, rfl⟩ := eol_of_head hnew
    have h := @step_opening tools _ _ _ _ hs hf hin (hev' hmore)
    rw [take_length_add_append, take_succ_cons, take_zero] at h
    rw [take_length, drop_length, nil_append]
    exact drain_crlf hs hin (hv.pending hin) h

/-! ### String values -/

end

section Strings

variable {str : StreamString} {value : Text}

/-- A piece of the value of a string. -/
def stringItem (st : State) (str : StreamString) (chunk : Text) (complete : Bool) :
    Output ToolCallItem :=
  { calls := [{ toolIndex := st.currentToolId
                parameters := stringFragment st str chunk complete }] }

def State.stringDone (st : State) (str : StreamString) : State :=
  { st with
    jsonStarted := !str.opened || st.jsonStarted
    currentToolParamCount := st.currentToolParamCount + 1
    streamString := none }

def State.stringOpened (st : State) (str : StreamString) : State :=
  { st with
    jsonStarted := !str.opened || st.jsonStarted
    streamString := some { str with opened := true } }

theorem step_string (hs : st.streamString = some str) :
    step tools st value = emitStringParameter st str value := by
  rw [step, hs]

theorem emitString_of_end {stop consume : Nat} (hl : str.leading = false)
    (h : valueEnd value = some (stop, consume)) : emitStringParameter st str value =
      .next ((st.stringDone str).advanceStream (value.take (stop + consume))) (stop + consume)
        (stringItem st str (stripTrailing (value.take stop)) true) := by
  unfold emitStringParameter
  rw [if_neg (by rw [hl]; exact false_ne_true)]
  simp only [h]
  rfl

theorem emitString_of_none (hl : str.leading = false) (h : valueEnd value = none) :
    emitStringParameter st str value =
      if value.length - holdBack = 0 then .wait
      else .next
        ((st.stringOpened str).advanceStream (value.take (value.length - holdBack)))
        (value.length - holdBack) (stringItem st str (value.take (value.length - holdBack)) false) := by
  unfold emitStringParameter
  rw [if_neg (by rw [hl]; exact false_ne_true)]
  simp only [h]
  rfl

/-- A fragment is put together from that of the piece given out before and that of the rest. -/
theorem trace_stringItem (st st' : State) (hid : st'.currentToolId = st.currentToolId)
    (str : StreamString) (c d : Text) (complete : Bool) :
    trace (stringItem st str (c ++ d) complete) =
      trace (stringItem st str c false) + trace (stringItem st' { str with opened := true } d complete) := by
  have hfrag : stringFragment st str (c ++ d) complete =
      stringFragment st str c false ++ stringFragment st' { str with opened := true } d complete := by
    simp [stringFragment]
  have htrace (st : State) (str : StreamString) (c : Text) (complete : Bool) :
      trace (stringItem st str c complete) =
        ⟨[], (stringFragment st str c complete).map (.char st.currentToolId)⟩ := by
    simp [trace, stringItem, ToolCallItem.events]
  rw [htrace, htrace, htrace, hfrag, map_append, hid]
  rfl

theorem stripTrailing_append {c d : Text} (hd : d ≠ []) :
    stripTrailing (c ++ d) = c ++ stripTrailing d := by
  rw [stripTrailing, stripTrailing, getLast?_append_of_ne_nil c hd]
  split_ifs
  · exact dropLast_append_of_ne_nil hd
  · rfl

/-- A string value may be given out in pieces, if enough of it is held back. -/
theorem drain_string (hs : st.streamString = some str) (hl : str.leading = false)
    (hend : valueEnd text = none) (hadv : text.length - holdBack ≠ 0) (new : Text) :
    (tracer tools).drain st (text ++ new) =
      prepend (trace (stringItem st str (text.take (text.length - holdBack)) false))
        ((tracer tools).drain
          ((st.stringOpened str).advanceStream (text.take (text.length - holdBack)))
          (text.drop (text.length - holdBack) ++ new)) := by
  have hhold : text.length = text.length - holdBack + 16 := by
    have : holdBack = 16 := rfl
    omega
  set a := text.length - holdBack with ha
  have hale : a ≤ text.length := by omega
  set st₁ := (st.stringOpened str).advanceStream (text.take a) with hst₁
  have hs₁ : st₁.streamString = some { str with opened := true } := rfl
  have htake : (text ++ new).take a = text.take a := take_append_of_le hale
  have hdrop : (text ++ new).drop a = text.drop a ++ new := drop_append_of_le_length hale
  have hend' := valueEnd_drop (text ++ new) (k := a) (by rw [length_append]; omega)
    (fun _ _ h => by have := lt_of_valueEnd_append hend h; omega)
  rw [hdrop] at hend'
  rcases hrest : valueEnd (text.drop a ++ new) with - | ⟨m, consume⟩ <;> rw [hrest] at hend'
  · replace hend' : valueEnd (text ++ new) = none := hend'
    rcases eq_or_ne new [] with rfl | hnew
    · have hstep : step tools st (text ++ []) = _ :=
        (step_string hs).trans (emitString_of_none hl hend')
      rw [append_nil, ← ha, if_neg hadv, ← hst₁] at hstep
      rw [append_nil, append_nil, Scanner.drain_of_next (tracer_step hstep)]
    have hlen : 0 < new.length := length_pos_iff.mpr hnew
    have hstep : step tools st (text ++ new) = _ :=
      (step_string hs).trans (emitString_of_none hl hend')
    have hstep₁ : step tools st₁ (text.drop a ++ new) = _ :=
      (step_string hs₁).trans (emitString_of_none hl hrest)
    have hlen₁ : (text ++ new).length - holdBack = a + new.length := by
      rw [length_append, holdBack]
      omega
    have hlen₂ : (text.drop a ++ new).length - holdBack = new.length := by
      rw [length_append, length_drop, holdBack]
      omega
    rw [hlen₁, if_neg (by omega)] at hstep
    rw [hlen₂, if_neg (by omega)] at hstep₁
    have h₁ := tracer_step hstep
    rw [take_add, htake, hdrop, trace_stringItem st st₁ rfl] at h₁
    refine Scanner.drain_of_meet (n := a + new.length) ?_ (tracer_step hstep₁) ?_
    · rw [h₁]
      congr 1
      rw [← htake, ← hdrop, ← take_add, hst₁]
      simp only [advanceStream, stringOpened, ← htake,
        ← contextAfter_append, ← take_add, Bool.not_true, Bool.false_or]
    · rw [← hdrop, drop_drop]
  · replace hend' : valueEnd (text ++ new) = some (a + m, consume) := hend'
    have hlt := lt_of_valueEnd_append hend hend'
    have hstep : step tools st (text ++ new) = _ :=
      (step_string hs).trans (emitString_of_end hl hend')
    have hstep₁ : step tools st₁ (text.drop a ++ new) = _ :=
      (step_string hs₁).trans (emitString_of_end hl hrest)
    have hne : (text.drop a ++ new).take m ≠ [] := by
      intro hnil
      have := congrArg List.length hnil
      rw [length_take, length_append, length_drop, length_nil] at this
      omega
    have h₁ := tracer_step hstep
    rw [take_add (j := m), htake, hdrop, stripTrailing_append hne, trace_stringItem st st₁ rfl] at h₁
    refine Scanner.drain_of_meet (n := a + m + consume) ?_ (tracer_step hstep₁) ?_
    · rw [h₁]
      congr 1
      · simp only [hst₁, advanceStream, stringOpened, stringDone, ← hdrop, ← htake,
          ← contextAfter_append, ← take_add, Bool.not_true, Bool.false_or, Nat.add_assoc]
    · rw [← hdrop, drop_drop, Nat.add_assoc]

end Strings

/-! ### The loop is steady -/

/-- The kinds of pass: in a string value, in a fence, at the line that opens one, or at the front of
a slice. -/
theorem step_kinds (tools : Tools) (st : State) (text : Text) (hw : step tools st text ≠ .wait) :
    (∃ str, st.streamString = some str) ∨
    st.streamString = none ∧ text ≠ [] ∧ (∃ fence, st.codeFence = some fence) ∨
    st.streamString = none ∧ st.codeFence = none ∧ st.isInsideToolCall = false ∧
      (∃ fence n, streamFenceEvent st.streamAtLineStart text = some (0, .opening fence n) ∧
        step tools st text = literal (st.fenced (some fence) true) (text.take n)) ∨
    st.streamString = none ∧ st.codeFence = none ∧
      0 < limit st.isInsideToolCall st.streamAtLineStart text := by
  rw [step] at hw
  split at hw
  · rename_i str hs
    exact .inl ⟨str, hs⟩
  rename_i hs
  split at hw
  · exact absurd rfl hw
  rename_i hne
  have hlen := length_pos_iff.mpr hne
  split at hw
  · rename_i fence hf
    exact .inr (.inl ⟨hs, hne, fence, hf⟩)
  rename_i hf
  split at hw
  · rename_i hin
    refine .inr (.inr (.inr ⟨hs, hf, ?_⟩))
    rw [limit, if_pos hin]
    exact hlen
  rename_i hin
  have hin' : st.isInsideToolCall = false := by simpa using hin
  split at hw
  · rename_i hev
    refine .inr (.inr (.inr ⟨hs, hf, ?_⟩))
    rw [limit, if_neg hin, hev]
    exact hlen
  · exact absurd rfl hw
  · rename_i fence n hev
    exact .inr (.inr (.inl ⟨hs, hf, hin', fence, n, hev, step_opening hs hf hin' hev⟩))
  · rename_i k e hev
    refine .inr (.inr (.inr ⟨hs, hf, ?_⟩))
    rw [limit, if_neg hin, hev]
    exact Nat.zero_lt_succ k

/-- An exception comes with more text behind it as well. -/
theorem step_raise (h : step tools st text = .raise) (new : Text) :
    step tools st (text ++ new) = .raise := by
  rcases step_kinds tools st text (by simp [h]) with
    ⟨str, hs⟩ | ⟨hs, hne, fence, hf⟩ | ⟨hs, hf, hin, fence, k, -, hstep⟩ | ⟨hs, hf, hpos⟩
  · have hsound : Sound False st text _ := emitString_sound hs
    rw [← step_string hs, h] at hsound
    exact hsound.elim
  · have hsound : Sound False st text _ := fencedStep_sound hf hne
    rw [← step_fenced hs hf hne, h] at hsound
    exact hsound.elim
  · rw [hstep] at h
    cases h
  · have hpos' := hpos.trans_le (limit_append_le st.isInsideToolCall st.streamAtLineStart text new)
    obtain ⟨x, hx⟩ := exists_slice_append st.isInsideToolCall st.streamAtLineStart text new
    rw [step_eq_tagStep hs hf hpos] at h
    rw [step_eq_tagStep hs hf hpos', hx]
    rcases tagStep_append (slice_ne_nil hpos) (by rw [h]; nofun) x with hsame | hrun
    · rw [hsame, h]
    · rw [tagStep_of_run hrun] at h
      cases h

theorem drain_next (hv : Valid st) (h : step tools st text = .next st' n out) (new : Text) :
    (tracer tools).drain st (text ++ new) =
      prepend (trace out) ((tracer tools).drain st' (text.drop n ++ new)) := by
  rcases step_kinds tools st text (by simp [h]) with
    ⟨str, hs⟩ | ⟨hs, hne, fence, hf⟩ | ⟨hs, hf, hin, fence, k, hev, hstep⟩ | ⟨hs, hf, hpos⟩
  · rcases hl : str.leading with - | -
    · rcases hend : valueEnd text with - | ⟨stop, consume⟩
      · rw [step_string hs, emitString_of_none hl hend] at h
        split_ifs at h with hadv
        cases h
        exact drain_string hs hl hend hadv new
      · have hle := valueEnd_le hend
        have h' : step tools st (text ++ new) = _ :=
          (step_string hs).trans (emitString_of_end hl (valueEnd_append hend new))
        rw [take_append_of_le hle.2, take_append_of_le hle.1.le] at h'
        rw [step_string hs, emitString_of_end hl hend] at h
        cases h
        exact drain_same h' hle.2
    · rw [step_string hs] at h
      refine drain_same (n := n) ?_ ?_
      · rw [step_string hs]
        unfold emitStringParameter at h ⊢
        rw [if_pos hl] at h ⊢
        cases text with
        | nil => cases h
        | cons c text => exact h
      · have hsound : Sound False st text _ := emitString_sound hs
        exact (h ▸ hsound).le
  · exact drain_fenced hs hf hv hne h new
  · rw [hstep] at h
    cases h
    rw [length_take_of_le (opening_le hev).2]
    exact drain_opening hs hf hv hin hev new
  · exact drain_front hs hf hpos h new

theorem tracer_step_cases {o : Output CallEvent} (h : (tracer tools).step st text = .next st' n o) :
    ∃ out, step tools st text = .next st' n out ∧ o = trace out := by
  change (step tools st text).map trace = _ at h
  rcases hstep : step tools st text with - | - | ⟨st₁, m, out⟩ <;> rw [hstep] at h <;> cases h
  exact ⟨out, rfl, rfl⟩

theorem steady (tools : Tools) : (tracer tools).Steady Valid where
  keeps hv h := by
    obtain ⟨out, hstep, -⟩ := tracer_step_cases h
    exact (hstep ▸ step_sound tools _ _).2 hv
  raise {st text} _ h new := by
    change (step tools st text).map trace = _ at h
    change (step tools st (text ++ new)).map trace = _
    rcases hstep : step tools st text with - | - | ⟨st₁, m, out⟩ <;> rw [hstep] at h <;> cases h
    rw [step_raise hstep]
    rfl
  next hv h new := by
    obtain ⟨out, hstep, rfl⟩ := tracer_step_cases h
    exact drain_next hv hstep new

/-! ### The result of a stream -/

/-- What a client can see of a result: the normal text, the names of the calls in their order, and
of each call the text of its arguments. -/
structure Observed where
  normalText : Text
  names : List Text
  arguments : Int → Text

variable (out : Output ToolCallItem)

def Output.observed : Observed where
  normalText := out.normalText
  names := out.calls.filterMap ToolCallItem.name
  arguments i := (out.calls.filter (·.toolIndex = i)).flatMap ToolCallItem.parameters

def CallEvent.name? : CallEvent → Option Text
  | .name _ funcName => some funcName
  | .char _ _ => none

def CallEvent.char? (i : Int) : CallEvent → Option Char
  | .name _ _ => none
  | .char j c => if j = i then some c else none

/-- What a client sees is in the trace. -/
theorem observed_eq : out.observed =
    { normalText := (trace out).normalText
      names := (trace out).calls.filterMap CallEvent.name?
      arguments i := (trace out).calls.filterMap (CallEvent.char? i) } := by
  have hnames (items : List ToolCallItem) :
      (items.flatMap ToolCallItem.events).filterMap CallEvent.name? = items.filterMap (·.name) := by
    induction items with
    | nil => rfl
    | cons item items ih =>
      have hitem : item.events.filterMap CallEvent.name? = item.name.toList := by
        rw [ToolCallItem.events, filterMap_append, filterMap_map, filterMap_map]
        rcases item.name with - | name <;> simp [CallEvent.name?, Function.comp_def]
      rw [flatMap_cons, filterMap_append, hitem, ih]
      rcases h : item.name with - | name
      · rw [filterMap_cons_none h]
        rfl
      · rw [filterMap_cons_some h]
        rfl
  have hargs (items : List ToolCallItem) (i : Int) :
      (items.flatMap ToolCallItem.events).filterMap (CallEvent.char? i) =
        (items.filter (·.toolIndex = i)).flatMap ToolCallItem.parameters := by
    induction items with
    | nil => rfl
    | cons item items ih =>
      have hitem : item.events.filterMap (CallEvent.char? i) =
          if item.toolIndex = i then item.parameters else [] := by
        rw [ToolCallItem.events, filterMap_append, filterMap_map, filterMap_map]
        split_ifs with heq <;> rcases item.name with - | name <;>
          simp [CallEvent.char?, Function.comp_def, heq]
      rw [flatMap_cons, filterMap_append, hitem, ih]
      split_ifs with heq
      · rw [filter_cons_of_pos (by simpa using heq), flatMap_cons]
      · rw [filter_cons_of_neg (by simpa using heq), nil_append]
  rw [Output.observed]
  congr 1
  · exact (hnames out.calls).symm
  · funext i
    exact (hargs out.calls i).symm

theorem streamFrom_eq (d : Detector) (chunks : List Text) : streamFrom tools d chunks =
    ((scanner tools).feed d.state d.buffer chunks).map fun (out, st, rest) =>
      out + finish ⟨st, rest⟩ := by
  induction chunks generalizing d with
  | nil =>
    exact congrArg some (zero_add _).symm
  | cons chunk chunks ih =>
    rw [streamFrom, Scanner.feed, parseStreamingIncrement]
    rcases (scanner tools).drain d.state (d.buffer ++ chunk) with - | ⟨out, st, rest⟩
    · rfl
    · simp only [Option.map_some, Option.bind_some, ih]
      rcases (scanner tools).feed st rest chunks with - | ⟨out', st', rest'⟩
      · rfl
      · simp only [prepend_some, Option.map_some, add_assoc]

/-- The trace of the result depends on the text only. -/
theorem stream_trace (tools : Tools) (chunks : List Text) : (stream tools chunks).map trace =
      ((tracer tools).drain {} chunks.flatten).map fun (out, st, rest) =>
        out + trace (finish ⟨st, rest⟩) := by
  have hvalid : Valid {} := ⟨fun h => (nomatch h), fun _ => rfl⟩
  have hfeed : (tracer tools).feed {} [] chunks = _ := (steady tools).feed_eq hvalid rfl chunks
  rw [nil_append] at hfeed
  rw [stream, streamFrom_eq, ← hfeed, tracer, Scanner.feed_map, Option.map_map, Option.map_map]
  congr 1
  funext ⟨out, st, rest⟩
  exact map_add trace out _

/-- What is observed depends on the text only. -/
theorem stream_observed (tools : Tools) {chunks chunks' : List Text}
    (h : chunks.flatten = chunks'.flatten) :
    (stream tools chunks).map Output.observed = (stream tools chunks').map Output.observed := by
  have hobs (chunks : List Text) : (stream tools chunks).map Output.observed =
      ((stream tools chunks).map trace).map fun out =>
        { normalText := out.normalText
          names := out.calls.filterMap CallEvent.name?
          arguments i := out.calls.filterMap (CallEvent.char? i) } := by
    rw [Option.map_map]
    exact congrArg (Option.map · (stream tools chunks)) (funext observed_eq)
  rw [hobs, hobs, stream_trace, stream_trace, h]

/-- **The increments do not matter**: two ways of cutting a text give the same normal text, the
same calls in the same order and the same arguments of each; an exception gets out of both or of
neither, and of none if every value can be encoded. -/
theorem stream_cut_invariant (tools : Tools) (chunks chunks' : List Text)
    (h : chunks.flatten = chunks'.flatten) :
    (stream tools chunks).map Output.observed = (stream tools chunks').map Output.observed ∧
      ((∀ func param value, (tools.encodeValue func param value).isSome) →
        (stream tools chunks).isSome) := by
  refine ⟨stream_observed tools h, fun henc => ?_⟩
  have hsome := congrArg Option.isSome (stream_trace tools chunks)
  rw [Option.isSome_map, Option.isSome_map] at hsome
  rw [hsome]
  refine Scanner.drain_isSome (fun st text hraise => ?_) _ _
  change (step tools st text).map trace = _ at hraise
  rcases hstep : step tools st text with - | - | ⟨st', n, out⟩ <;> rw [hstep] at hraise <;>
    cases hraise
  obtain ⟨func, param, value, hnone⟩ := fails_of_raise hstep
  have := henc func param value
  rw [hnone] at this
  cases this

/-- One tool whose parameters are strings. -/
def oneTool : Tools where
  tools := [{ isFunction := true, name := ['f'] }]
  isStringSchema _ _ := true
  encodeValue _ _ value := some value

/-- A wrapper with one call and one parameter, whose value is `"`. -/
def quoteCall : Text :=
  Tag.toolCall.token ++ Tag.function.token ++ ['f', '>'] ++ Tag.parameter.token ++ ['p', '>', '"'] ++
    Tag.parameterEnd.token ++ Tag.functionEnd.token ++ Tag.toolCallEnd.token

theorem stream_cut_invariant_quoteCall : [quoteCall].flatten = (quoteCall.map ([·])).flatten ∧
    (stream oneTool [quoteCall]).map Output.observed =
      (stream oneTool (quoteCall.map ([·]))).map Output.observed ∧
    (stream oneTool [quoteCall]).isSome :=
  have h := stream_cut_invariant oneTool [quoteCall] (quoteCall.map ([·])) (by decide +kernel)
  ⟨by decide +kernel, h.1, h.2 fun _ _ _ => rfl⟩

/-- The call is found, and the quotation mark is escaped in its arguments. -/
example : (stream oneTool (quoteCall.map ([·]))).any (fun out =>
    out.normalText = [] ∧ out.observed.names = [['f']] ∧ out.observed.arguments 0 =
      ['{', '"', 'p', '"', ':', ' ', '"', '\\', '"', '"', '}']) := by
  decide +kernel

end SglangRuntime.Qwen3Coder
