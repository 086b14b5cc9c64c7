import SglangRuntime.Parser.Qwen3Coder.Model

/-!
# Qwen3Coder — the parser of whole texts

`detect_and_parse` of `function_call/qwen3_coder_detector.py`.  The source's spans are triples of
indices into the text; here a `Span` has the text before it and its own content, so that the spans
and what is left behind the last one make up the text.

Two tokens of the format never overlap, so looking for the next one may go on at the next
character.  The lazy expression for parameters ends a value as the streaming parser does
(`valueEnd`), except that at the end of the text a last line feed is left out.
-/

namespace SglangRuntime.Qwen3Coder

open Foundation

structure Span where
  before : Text
  content : Text
  closed : Bool

/-- Where the token is that closes what was opened `depth` times. -/
def matchingEnd (opening closing : Tag) : Nat → Text → Option Nat
  | _, [] => none
  | depth, c :: text =>
    if headTag (c :: text) = some closing then
      if depth = 1 then some 0 else (matchingEnd opening closing (depth - 1) text).map (· + 1)
    else
      (matchingEnd opening closing (if headTag (c :: text) = some opening then depth + 1 else depth)
        text).map (· + 1)

/-- The span that is opened at place `start`, and what is left behind it. -/
def cutSpan (opening closing : Tag) (before body : Text) : Span × Text :=
  match matchingEnd opening closing 1 body with
  | some stop => (⟨before, body.take stop, true⟩, body.drop (stop + closing.token.length))
  | none => (⟨before, body, false⟩, [])

/-- `_iter_structure_spans`. -/
def structureSpans (opening closing : Tag) : Nat → Text → List Span × Text
  | 0, text => ([], text)
  | fuel + 1, text =>
    match find opening.token text with
    | none => ([], text)
    | some start =>
      let (span, rest) := cutSpan opening closing (text.take start)
        (text.drop (start + opening.token.length))
      let (spans, tail) := structureSpans opening closing fuel rest
      (span :: spans, tail)

/-- The end of the first line, or of the text. -/
def lineEnd (text : Text) : Nat := (streamLineEnd text).getD text.length

def findFenceOpen (atLineStart : Bool) (text : Text) : Option (Nat × Fence × Nat) :=
  firstMatch isEol (fun atLineStart text =>
    if atLineStart then (openingOf (lineOf text)).map (·, lineEnd text) else none) atLineStart text

def findFenceClose (fence : Fence) (text : Text) : Option (Nat × Nat) :=
  firstMatch isEol (fun atLineStart text =>
    if atLineStart && isStreamFenceClose fence text then some (lineEnd text) else none) true text

/-- `_iter_unquoted_tool_spans`, behind the text `skipped`. -/
def unquotedToolSpans : Nat → Bool → Text → Text → List Span × Text
  | 0, _, skipped, text => ([], skipped ++ text)
  | fuel + 1, atLineStart, skipped, text =>
    let goOn (n : Nat) := unquotedToolSpans fuel (contextAfter isEol atLineStart (text.take n))
      (skipped ++ text.take n) (text.drop n)
    let wrapper (start : Nat) :=
      let (span, rest) := cutSpan .toolCall .toolCallEnd (skipped ++ text.take start)
        (text.drop (start + Tag.toolCall.token.length))
      let (spans, tail) := unquotedToolSpans fuel false [] rest
      (span :: spans, tail)
    match find Tag.toolCall.token text, findFenceOpen atLineStart text with
    | none, none => ([], skipped ++ text)
    | some start, none => wrapper start
    | toolStart, some (fenceStart, fence, length) =>
      if toolStart.any (· ≤ fenceStart) then wrapper (toolStart.getD 0)
      else
        match findFenceClose fence (text.drop (fenceStart + length)) with
        | none => ([], skipped ++ text)
        | some (stop, stopLength) => goOn (fenceStart + length + stop + stopLength)

/-- What the expression for parameters finds: names and values. -/
def parameterMatches : Nat → Text → List Text
  | 0, _ => []
  | fuel + 1, text =>
    match find Tag.parameter.token text with
    | none => []
    | some start =>
      let rest := text.drop (start + Tag.parameter.token.length)
      match valueEnd rest with
      | some (stop, consume) => rest.take stop :: parameterMatches fuel (rest.drop (stop + consume))
      | none => [stripTrailing rest]

/-- A dictionary keeps the place of the first entry and the value of the last. -/
def insertParam (params : List (Text × Text)) (name value : Text) : List (Text × Text) :=
  if params.any (·.1 = name) then params.map fun p => if p.1 = name then (name, value) else p
  else params ++ [(name, value)]

def parsedParams (text : Text) : List (Text × Text) :=
  (parameterMatches (text.length + 1) text).foldl (fun params p =>
    match find ['>'] p with
    | none => params
    | some k => insertParam params (p.take k) (stripTrailing (stripLeading (p.drop (k + 1))))) []

variable (tools : Tools)

/-- `json.dumps` of the parameters; `none` when a value cannot be encoded. -/
def Tools.encodeParams (func : Text) (params : List (Text × Text)) : Option Text :=
  (params.mapM fun (name, value) => (tools.encodeValue func name value).map fun text =>
    '"' :: name.flatMap escape ++ ['"', ':', ' '] ++ text).map fun entries =>
      '{' :: [',', ' '].intercalate entries ++ ['}']

/-- A function of a wrapper: `none` when an exception gets out, `some none` when it is not
accepted, else its name and its arguments. -/
def parseFunction (body : Text) : Option (Option (Text × Text)) :=
  match find ['>'] body with
  | none => some none
  | some nameEnd =>
    let funcName := body.take nameEnd
    if tools.isDeclaredTool funcName then
      (tools.encodeParams funcName (parsedParams (body.drop (nameEnd + 1)))).map fun args =>
        some (funcName, args)
    else some none

/-- The text of a span. -/
def Span.text (opening closing : Tag) (span : Span) : Text :=
  opening.token ++ span.content ++ if span.closed then closing.token else []

/-- The functions of a wrapper, and what follows the last one. -/
def Span.functions (span : Span) : List Span × Text :=
  structureSpans .function .functionEnd (span.content.length + 1) span.content

/-- The wrapper without its accepted functions. -/
def Span.remaining (span : Span) (parsed : List (Option (Text × Text))) : Span :=
  { span with content := (span.functions.1.zip parsed).flatMap (fun (func, call) =>
      func.before ++ if call.isSome then [] else func.text .function .functionEnd) ++
        span.functions.2 }

/-- One wrapper: its calls, and the normal text before it and of it. -/
def parseSpan (index : Nat) (separator : Option Text) (span : Span) :
    Option (Option Text × Output ToolCallItem) :=
  (span.functions.1.mapM fun func => parseFunction tools func.content).map fun parsed =>
    let calls := parsed.reduceOption.zipIdx.map fun ((name, args), i) =>
      { toolIndex := index + i, name := some name, parameters := args }
    let (separator, out) := passSeparator separator span.before
    if calls ≠ [] ∧ calls.length = span.functions.1.length then
      (some [], { normalText := out, calls })
    else
      let (separator, out') := passSeparator separator
        ((span.remaining parsed).text .toolCall .toolCallEnd)
      (separator, { normalText := out ++ out', calls })

def parseSpans (tools : Tools) : Nat → Option Text → List Span → Text → Option (Output ToolCallItem)
  | _, separator, [], tail => some { normalText := (passSeparator separator tail).2 }
  | index, separator, span :: spans, tail =>
    (parseSpan tools index separator span).bind fun (separator, out) =>
      (parseSpans tools (index + out.calls.length) separator spans tail).map (out + ·)

def detectAndParse (text : Text) : Output ToolCallItem :=
  if find Tag.toolCall.token text = none then { normalText := text }
  else
    let (spans, tail) := unquotedToolSpans (text.length + 1) true [] text
    -- an unfinished wrapper counts only if there is no finished one
    let finished := spans.any Span.closed
    let spans' := if finished then spans.filter Span.closed else spans
    let tail' := if finished then
        (spans.filter (!·.closed)).flatMap (fun s => s.before ++ s.text .toolCall .toolCallEnd) ++ tail
      else tail
    (parseSpans tools 0 none spans' tail').getD { normalText := text }

end SglangRuntime.Qwen3Coder
