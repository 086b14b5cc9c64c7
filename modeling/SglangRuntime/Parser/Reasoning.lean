import SglangRuntime.Foundation.TokenSearch

/-!
# Parser — separating the reasoning from the answer

`BaseReasoningFormatDetector` of `parser/reasoning_parser.py`, at once (`detectAndParse`) and by
increments (`parseStreamingIncrement`, `finish`).  A text is a list of characters; where the source
has the index -1 there is `none`.  The arguments of the constructor are a `Detector`, the fields that
change are its `State`.

The label that subclasses append to the start token is empty in the base class, and the base class
takes every tool-start token for an interruption (`toolStartConfirmed`).
-/

namespace SglangRuntime.Reasoning

open Foundation

abbrev Text := List Char

structure StreamingParseResult where
  normalText : Text := []
  reasoningText : Text := []
deriving DecidableEq, Repr

structure Detector where
  thinkStartToken : Text
  thinkEndToken : Text
  forceReasoning : Bool := false
  streamReasoning : Bool := true
  toolStartToken : Option Text := none
  continueFinalMessage : Bool := false
  priorContent : Text := []
  forceNonemptyContent : Bool := false

structure State where
  buffer : Text := []
  inReasoning : Bool
  strippedThinkStart : Bool := false
  accumulatedReasoning : Text := []

/-- The token is in the text. -/
def contains (token text : Text) : Bool := (find token text).isSome

/-- `_ends_with_partial_token`. -/
def endsWithPartialToken (buffer token : Text) : Nat := partialSuffix buffer token

/-- The first occurrence is taken out of the text. -/
def removeFirst (token text : Text) : Text :=
  match find token text with
  | some i => text.take i ++ text.drop (i + token.length)
  | none => text

/-- The loop that strips a token from the front as long as there is one. -/
def stripWhile (token : Text) : Nat → Text → Text
  | 0, text => text
  | fuel + 1, text =>
    if token <+: text then stripWhile token fuel (text.drop token.length) else text

def toolStartConfirmed (_remainder : Text) : Option Bool := some true

namespace Detector

variable (d : Detector)

def previousContent : Text := if d.continueFinalMessage then d.priorContent else []

def thinkStartSelfLabel : Text := []

/-- The opener as it is looked for. -/
def thinkStartText : Text := d.thinkStartToken ++ thinkStartSelfLabel

def init : State :=
  let inReasoning := d.forceReasoning
  let inReasoning := if contains d.thinkStartToken d.previousContent then true else inReasoning
  let inReasoning := if contains d.thinkEndToken d.previousContent then false else inReasoning
  { inReasoning }

/-- The tool-start token, where it is set and not empty. -/
def toolStart : Option Text := d.toolStartToken.filter fun token => token ≠ []

def findThinkEnd (text : Text) (_toolIdx : Option Nat) : Option Nat := find d.thinkEndToken text

/-- The loop of `_find_tool_start`. -/
def findToolFrom (token text : Text) : Nat → Nat → Option Nat × Option Bool
  | 0, _ => (none, none)
  | fuel + 1, searchFrom =>
    match find token (text.drop searchFrom) with
    | none => (none, none)
    | some k =>
      let toolIdx := searchFrom + k
      match toolStartConfirmed (text.drop toolIdx) with
      | some false => findToolFrom token text fuel (toolIdx + token.length)
      | confirmed => (some toolIdx, confirmed)

def findToolStart (text : Text) : Option Nat × Option Bool :=
  match d.toolStartToken with
  | none => (none, none)
  | some token => findToolFrom token text (text.length + 1) 0

/-! ### At once -/

def maybeApplyForceNonemptyContent (ret : StreamingParseResult) : StreamingParseResult :=
  if d.forceNonemptyContent && ret.normalText.isEmpty then
    { normalText := ret.reasoningText, reasoningText := ret.normalText }
  else ret

variable (st : State)

def detectAndParseImpl (text : Text) : StreamingParseResult :=
  let inReasoning := st.inReasoning || contains d.thinkStartToken text
  if !inReasoning then { normalText := text }
  else
    let processedText := stripWhile d.thinkStartText (text.length + 1) text
    let (toolIdx, confirmed) : Option Nat × Option Bool :=
      if inReasoning && d.toolStartToken.isSome then d.findToolStart processedText else (none, none)
    let endIdx := d.findThinkEnd processedText toolIdx
    let endSeen := contains d.thinkEndToken d.previousContent
    match toolIdx, confirmed, endIdx with
    | some toolIdx, some true, none =>
      if !endSeen then
        { normalText := processedText.drop toolIdx, reasoningText := processedText.take toolIdx }
      else { normalText := processedText }
    | _, _, none =>
      if !endSeen then { reasoningText := processedText } else { normalText := processedText }
    | _, _, some endIdx =>
      { normalText := processedText.drop (endIdx + d.thinkEndToken.length)
        reasoningText := processedText.take endIdx }

def detectAndParse (text : Text) : StreamingParseResult :=
  d.maybeApplyForceNonemptyContent (d.detectAndParseImpl st text)

/-! ### By increments -/

variable (currentText : Text)

/-- The current text is a strict beginning of one of the tokens. -/
def keepsBuffering : Bool :=
  (d.thinkStartText :: d.thinkEndToken :: d.toolStart.toList).any fun token =>
    currentText <+: token && token ≠ currentText

/-- A generated opener is stripped before the active block's boundary. -/
def stripOpener : Text × State :=
  match find d.thinkStartText currentText with
  | none => (currentText, st)
  | some startIdx =>
    if st.strippedThinkStart then (currentText, st)
    else
      let boundaryToolIdx :=
        if st.inReasoning && d.toolStart.isSome then (d.findToolStart currentText).1 else none
      let boundaryIdx :=
        if st.inReasoning then d.findThinkEnd currentText boundaryToolIdx else none
      let boundaryIdx := boundaryIdx.or boundaryToolIdx
      if boundaryIdx.all fun boundaryIdx => startIdx < boundaryIdx then
        let currentText := removeFirst d.thinkStartText currentText
        (currentText,
          { st with buffer := currentText, strippedThinkStart := true, inReasoning := true })
      else (currentText, st)

/-- How much of the end of the text may be a token that is split. -/
def holdback : Nat :=
  let tokens := d.thinkEndToken :: d.toolStart.toList ++
    (if st.strippedThinkStart then [] else [d.thinkStartText])
  (tokens.map (endsWithPartialToken currentText)).foldl max 0

/-- Inside a block whose end has not come. -/
def continueReasoning (toolIdx : Option Nat)
    (confirmed : Option Bool) : StreamingParseResult × State :=
  let hold :=
    if d.streamReasoning then
      let keep := currentText.length - d.holdback st currentText
      ({ reasoningText := currentText.take keep }, { st with buffer := currentText.drop keep })
    else ({}, st)
  match toolIdx, confirmed with
  | some toolIdx, some true =>
    ({ normalText := currentText.drop toolIdx, reasoningText := currentText.take toolIdx },
      { st with buffer := [], inReasoning := false, strippedThinkStart := true })
  | some toolIdx, none =>
    -- an occurrence at the edge of the increment is not classified yet
    if d.streamReasoning then
      ({ reasoningText := currentText.take toolIdx }, { st with buffer := currentText.drop toolIdx })
    else ({}, st)
  | _, _ => hold

/-- What is passed on of the current text, the opener being stripped. -/
def separate : StreamingParseResult × State :=
  let (toolIdx, confirmed) : Option Nat × Option Bool :=
    if st.inReasoning && d.toolStart.isSome then d.findToolStart currentText else (none, none)
  match st.inReasoning, d.findThinkEnd currentText toolIdx with
  | true, some endIdx =>
    ({ normalText := currentText.drop (endIdx + d.thinkEndToken.length)
       reasoningText := currentText.take endIdx },
      -- closing the block accounts for its opener, including a prefilled one
      { st with buffer := [], inReasoning := false, strippedThinkStart := true })
  | true, none => d.continueReasoning st currentText toolIdx confirmed
  | false, _ => ({ normalText := currentText }, { st with buffer := [] })

variable (newText : Text)

def parseStreamingIncrementImpl : StreamingParseResult × State :=
  let st := { st with buffer := st.buffer ++ newText }
  let currentText := st.buffer
  if d.keepsBuffering currentText then ({}, st)
  else
    let (currentText, st) := d.stripOpener st currentText
    d.separate st currentText

def parseStreamingIncrement : StreamingParseResult × State :=
  let (ret, st) := d.parseStreamingIncrementImpl st newText
  if d.forceNonemptyContent then
    (ret, { st with accumulatedReasoning :=
      if st.inReasoning then st.accumulatedReasoning ++ ret.reasoningText else [] })
  else (ret, st)

def stripLeadingThinkStart (text : Text) : Text :=
  if d.thinkStartText <+: text then text.drop d.thinkStartText.length else text

def finish : StreamingParseResult × State :=
  if !st.inReasoning then ({ normalText := st.buffer }, { st with buffer := [] })
  else
    let buffer := d.stripLeadingThinkStart st.buffer
    let st := { st with buffer := [] }
    if d.forceNonemptyContent then
      ({ normalText := st.accumulatedReasoning ++ buffer }, { st with accumulatedReasoning := [] })
    else ({ reasoningText := buffer }, st)

/-! ### A stream -/

/-- What the increments give, each part put together, and the state after them. -/
def feed (st : State) : List Text → StreamingParseResult × State
  | [] => ({}, st)
  | newText :: chunks =>
    let (ret, st) := d.parseStreamingIncrement st newText
    let (rest, st) := feed st chunks
    ({ normalText := ret.normalText ++ rest.normalText
       reasoningText := ret.reasoningText ++ rest.reasoningText }, st)

/-- A whole stream: the increments, then `finish`. -/
def stream (chunks : List Text) : StreamingParseResult :=
  let (ret, st) := d.feed d.init chunks
  let (last, _) := d.finish st
  { normalText := ret.normalText ++ last.normalText
    reasoningText := ret.reasoningText ++ last.reasoningText }

end Detector

end SglangRuntime.Reasoning
