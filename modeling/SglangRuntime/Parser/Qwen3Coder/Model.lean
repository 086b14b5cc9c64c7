import SglangRuntime.Foundation.Increments
import SglangRuntime.Foundation.TokenSearch
import SglangRuntime.Parser.Qwen3Coder.Fence
import Mathlib.Data.Nat.Digits.Defs

/-!
# Qwen3Coder — the streaming parser

`_parse_streaming_increment_impl` and `finish` of `function_call/qwen3_coder_detector.py`.  One pass
through the source's loop is `step`: it breaks (`wait`), lets an exception out (`raise`) or goes on
with a new state, having moved the cursor (`next`).  The buffer is kept as what lies behind the
cursor, so the cursor itself is not in the state.

A value that is not declared as a string is converted by its schema and printed by `json.dumps`;
`Tools.encodeValue` stands for both, and is `none` where they raise.  Which parameters are declared
as strings is `Tools.isStringSchema`.  The counters of the source and its log are left out.
-/

namespace SglangRuntime.Qwen3Coder

open Foundation List

/-! ### Tags -/

inductive Tag where
  | toolCall | toolCallEnd | function | functionEnd | parameter | parameterEnd
deriving DecidableEq

def Tag.token : Tag → Text
  | .toolCall => ['<', 't', 'o', 'o', 'l', '_', 'c', 'a', 'l', 'l', '>']
  | .toolCallEnd => ['<', '/', 't', 'o', 'o', 'l', '_', 'c', 'a', 'l', 'l', '>']
  | .function => ['<', 'f', 'u', 'n', 'c', 't', 'i', 'o', 'n', '=']
  | .functionEnd => ['<', '/', 'f', 'u', 'n', 'c', 't', 'i', 'o', 'n', '>']
  | .parameter => ['<', 'p', 'a', 'r', 'a', 'm', 'e', 't', 'e', 'r', '=']
  | .parameterEnd => ['<', '/', 'p', 'a', 'r', 'a', 'm', 'e', 't', 'e', 'r', '>']

def Tag.all : List Tag :=
  [.toolCall, .toolCallEnd, .function, .functionEnd, .parameter, .parameterEnd]

/-- The tag at the front.  No tag begins with another one, so the order of the tests is free. -/
def headTag (text : Text) : Option Tag := Tag.all.find? fun t => t.token <+: text

/-- The text may still become a tag. -/
def isPotentialTag (text : Text) : Bool := Tag.all.any fun t => text <+: t.token

/-- What ends a value: how much of the ending belongs to it. -/
def valueEnding (_ : Unit) (text : Text) : Option Nat :=
  match headTag text with
  | some .parameterEnd => some Tag.parameterEnd.token.length
  | some .parameter | some .functionEnd => some 0
  | _ => none

/-- The first ending of a value: where it is, and how much of it is consumed. -/
def valueEnd (text : Text) : Option (Nat × Nat) := firstMatch (fun _ => ()) valueEnding () text

/-! ### JSON text -/

def unicodeEscape (n : Nat) : Text :=
  ['\\', 'u', Nat.digitChar (n / 4096 % 16), Nat.digitChar (n / 256 % 16),
    Nat.digitChar (n / 16 % 16), Nat.digitChar (n % 16)]

variable (c : Char)

/-- A character in a string of `json.dumps(…, ensure_ascii=False)`. -/
def escape : Text :=
  match c with
  | '"' => ['\\', '"']
  | '\\' => ['\\', '\\']
  | '\n' => ['\\', 'n']
  | '\r' => ['\\', 'r']
  | '\t' => ['\\', 't']
  | '\x08' => ['\\', 'b']
  | '\x0c' => ['\\', 'f']
  | c => if c.toNat < 32 then unicodeEscape c.toNat else [c]

/-- A character in a string of `json.dumps(…)`: only ASCII. -/
def escapeAscii : Text :=
  if c.toNat < 127 then escape c
  else if c.toNat < 65536 then unicodeEscape c.toNat
  else
    let n := c.toNat - 65536
    unicodeEscape (55296 + n / 1024) ++ unicodeEscape (56320 + n % 1024)

def dumpsName (name : Text) : Text := '"' :: name.flatMap escapeAscii ++ ['"']

/-! ### Tools, output and state -/

structure Tool where
  isFunction : Bool
  name : Text

structure Tools where
  tools : List Tool
  forwardUnknownTools : Bool := false
  isStringSchema : Text → Text → Bool
  encodeValue : Text → Text → Text → Option Text

def Tools.toolNameKnown (t : Tools) (funcName : Text) : Bool :=
  t.tools.any fun tool => tool.isFunction && tool.name = funcName

def Tools.isDeclaredTool (t : Tools) (funcName : Text) : Bool :=
  t.tools.isEmpty || t.forwardUnknownTools || t.toolNameKnown funcName

structure ToolCallItem where
  toolIndex : Int
  name : Option Text := none
  parameters : Text := []
deriving DecidableEq

/-- `StreamingParseResult`. -/
structure Output (β : Type) where
  normalText : Text := []
  calls : List β := []
deriving DecidableEq

instance {β : Type} : Add (Output β) :=
  ⟨fun a b => ⟨a.normalText ++ b.normalText, a.calls ++ b.calls⟩⟩

instance {β : Type} : Zero (Output β) := ⟨{}⟩

instance {β : Type} : AddMonoid (Output β) where
  add_assoc a b c := congrArg₂ Output.mk (append_assoc ..) (append_assoc ..)
  zero_add _ := rfl
  add_zero a := congrArg₂ Output.mk (append_nil _) (append_nil _)
  nsmul := nsmulRec

structure StreamString where
  name : Text
  opened : Bool
  leading : Bool
deriving DecidableEq

structure State where
  currentToolId : Int := -1
  currentToolParamCount : Nat := 0
  jsonStarted : Bool := false
  isInsideToolCall : Bool := false
  pendingToolSeparator : Option Text := none
  currentFuncName : Option Text := none
  streamString : Option StreamString := none
  pendingToolPrefix : Option Text := none
  toolWrapperPrefix : Text := []
  suppressCurrentCall : Bool := false
  rejectedFunctionDepth : Nat := 0
  rejectedToolDepth : Nat := 0
  preserveToolWrapper : Bool := false
  codeFence : Option Fence := none
  codeFenceLineCanClose : Bool := true
  streamAtLineStart : Bool := true
deriving DecidableEq

/-- What `str.strip` takes away. -/
def isSpace : Bool :=
  let n := c.toNat
  9 ≤ n && n ≤ 13 || 28 ≤ n && n ≤ 32 || n = 133 || n = 160 || n = 5760 ||
    8192 ≤ n && n ≤ 8202 || n = 8232 || n = 8233 || n = 8239 || n = 8287 || n = 12288

/-- Behind a call blanks are held until something else comes. -/
def passSeparator (separator : Option Text) (text : Text) : Option Text × Text :=
  match separator with
  | none => (none, text)
  | some held => if (held ++ text).all isSpace then (some (held ++ text), []) else (none, held ++ text)

namespace State

section

variable (st : State)

def advanceStream (consumed : Text) : State :=
  { st with streamAtLineStart := contextAfter isEol st.streamAtLineStart consumed }

def appendNormalText (text : Text) : State × Text :=
  let (separator, out) := passSeparator st.pendingToolSeparator text
  ({ st with pendingToolSeparator := separator }, out)

/-- Text without markup is shown where it stands. -/
def shows : Bool :=
  !st.isInsideToolCall || st.suppressCurrentCall ||
    st.preserveToolWrapper && st.currentFuncName.isNone

def appendUnparsedText (text : Text) : State × Text :=
  match st.pendingToolPrefix with
  | some pending => ({ st with pendingToolPrefix := some (pending ++ text) }, [])
  | none =>
    if st.shows then st.appendNormalText text
    else if st.currentFuncName.isNone then
      ({ st with toolWrapperPrefix := st.toolWrapperPrefix ++ text }, [])
    else (st, [])

end

end State

/-! ### One pass through the loop -/

abbrev Pass := Move State (Output ToolCallItem)

/-- The consumed text goes out as it is. -/
def literal (st : State) (consumed : Text) : Pass :=
  let (st, out) := st.appendNormalText consumed
  .next (st.advanceStream consumed) consumed.length { normalText := out }

/-- The consumed text is no markup. -/
def unparsed (st : State) (consumed : Text) : Pass :=
  let (st, out) := st.appendUnparsedText consumed
  .next (st.advanceStream consumed) consumed.length { normalText := out }

/-- One line feed at either end of a value is taken off. -/
def stripTrailing (value : Text) : Text :=
  if value.getLast? = some '\n' then value.dropLast else value

def stripLeading (value : Text) : Text :=
  match value with
  | '\n' :: rest => rest
  | _ => value

/-- How much of a string value is held back: the longest delimiter and four characters more. -/
def holdBack : Nat := 16

section

variable (st : State)

variable (s : StreamString)

/-- The fragment that a piece of a string value contributes. -/
def stringFragment (chunk : Text) (complete : Bool) : Text :=
  (if s.opened then []
    else (if st.jsonStarted then [] else ['{']) ++
      (if st.currentToolParamCount = 0 then [] else [',', ' ']) ++ dumpsName s.name ++
        [':', ' ', '"']) ++
    chunk.flatMap escape ++ (if complete then ['"'] else [])

/-- `_emit_string_parameter`.  The first line feed of the value is a pass of its own here. -/
def emitStringParameter (value : Text) : Pass :=
  if s.leading then
    match value with
    | [] => .wait
    | c :: _ =>
      let st := { st with streamString := some { s with leading := false } }
      if c = '\n' then .next (st.advanceStream [c]) 1 0 else .next st 0 0
  else
    let item (chunk : Text) (complete : Bool) : Output ToolCallItem :=
      { calls := [{ toolIndex := st.currentToolId
                    parameters := stringFragment st s chunk complete }] }
    match valueEnd value with
    | some (stop, consume) =>
      .next ({ st with
          jsonStarted := !s.opened || st.jsonStarted
          currentToolParamCount := st.currentToolParamCount + 1
          streamString := none }.advanceStream (value.take (stop + consume)))
        (stop + consume) (item (stripTrailing (value.take stop)) true)
    | none =>
      let advance := value.length - holdBack
      if advance = 0 then .wait
      else
        .next ({ st with
            jsonStarted := !s.opened || st.jsonStarted
            streamString := some { s with opened := true } }.advanceStream (value.take advance))
          advance (item (value.take advance) false)

/-- Inside a fence: everything is literal up to the closing line. -/
def fencedStep (fence : Fence) (text : Text) : Pass :=
  match streamLineEnd text with
  | none =>
    if !st.codeFenceLineCanClose then literal st text
    else if couldBeStreamFenceClose fence text then .wait
    else .next { st with codeFenceLineCanClose := false } 0 0
  | some n =>
    let closes := st.codeFenceLineCanClose && isStreamFenceClose fence (text.take n)
    literal { st with
        codeFence := if closes then none else some fence
        codeFenceLineCanClose := true } (text.take n)

/-- The tags in the body of a rejected function, which are literal; `none` where the source goes
on to the ordinary treatment. -/
def rejectedTag (slice : Text) : Option Pass :=
  if !st.suppressCurrentCall then none
  else
    match headTag slice with
    | some .function =>
      match find ['>'] slice with
      | none => some .wait
      | some endAngle =>
        some (literal { st with rejectedFunctionDepth := st.rejectedFunctionDepth + 1 }
          (slice.take (endAngle + 1)))
    | some .functionEnd =>
      let depth := st.rejectedFunctionDepth - 1
      some (literal { st with
          rejectedFunctionDepth := depth
          suppressCurrentCall := depth ≠ 0
          rejectedToolDepth := if depth = 0 then 0 else st.rejectedToolDepth }
        Tag.functionEnd.token)
    | some .toolCall =>
      some (literal { st with rejectedToolDepth := st.rejectedToolDepth + 1 } Tag.toolCall.token)
    | some .toolCallEnd =>
      if st.rejectedToolDepth = 0 then none
      else
        some (literal { st with rejectedToolDepth := st.rejectedToolDepth - 1 }
          Tag.toolCallEnd.token)
    | _ => none

/-- The close of the wrapper also ends a rejected function that was not closed. -/
def boundRejected (slice : Text) : State :=
  if st.suppressCurrentCall && headTag slice = some .toolCallEnd then
    { st with suppressCurrentCall := false, rejectedFunctionDepth := 0 }
  else st

/-- `<tool_call>`. -/
def toolCallStart : Pass :=
  let token := Tag.toolCall.token
  let (st, out) := match st.pendingToolPrefix with
    | some pending => st.appendNormalText pending
    | none => (st, [])
  .next ({ st with
      pendingToolPrefix := some token
      toolWrapperPrefix := token
      suppressCurrentCall := false
      preserveToolWrapper := false
      isInsideToolCall := true }.advanceStream token) token.length { normalText := out }

end

/-- `<function=name>`, up to its closing angle. -/
def functionStart (tools : Tools) (st : State) (tag : Text) : Pass :=
  let funcName := tag.dropLast.drop Tag.function.token.length
  if tools.isDeclaredTool funcName then
    let st' := { st with
      toolWrapperPrefix := st.pendingToolPrefix.getD st.toolWrapperPrefix
      pendingToolPrefix := none
      pendingToolSeparator := none
      suppressCurrentCall := false
      currentToolId := st.currentToolId + 1
      currentToolParamCount := 0
      jsonStarted := false
      currentFuncName := some funcName }
    .next (st'.advanceStream tag) tag.length
      { calls := [{ toolIndex := st'.currentToolId, name := some funcName }] }
  else
    let wrapper := if st.preserveToolWrapper then []
      else st.pendingToolPrefix.getD st.toolWrapperPrefix
    let (st, out) := { st with
      suppressCurrentCall := true
      rejectedFunctionDepth := 1
      rejectedToolDepth := 0
      currentFuncName := none
      preserveToolWrapper := true
      pendingToolPrefix := none }.appendNormalText (wrapper ++ tag)
    .next (st.advanceStream tag) tag.length { normalText := out }

/-- `<parameter=name>value` of the call `func`. -/
def parameterStep (tools : Tools) (st : State) (func : Text) (slice : Text) : Pass :=
  match find ['>'] slice with
  | none => .wait
  | some nameEnd =>
    let paramName := (slice.take nameEnd).drop Tag.parameter.token.length
    if tools.isStringSchema func paramName then
      .next ({ st with
          streamString := some { name := paramName, opened := false, leading := true } }.advanceStream
            (slice.take (nameEnd + 1))) (nameEnd + 1) 0
    else
      let rest := slice.drop (nameEnd + 1)
      match valueEnd rest with
      | none => .wait
      | some (stop, consume) =>
        match tools.encodeValue func paramName (stripTrailing (stripLeading (rest.take stop))) with
        | none => .raise
        | some value =>
          let opening : List ToolCallItem :=
            if st.jsonStarted then [] else [{ toolIndex := st.currentToolId, parameters := ['{'] }]
          let fragment := (if st.currentToolParamCount = 0 then [] else [',', ' ']) ++
            dumpsName paramName ++ [':', ' '] ++ value
          let total := nameEnd + 1 + (stop + consume)
          .next ({ st with
              jsonStarted := true
              currentToolParamCount := st.currentToolParamCount + 1 }.advanceStream
                (slice.take total)) total
            { calls := opening ++ [{ toolIndex := st.currentToolId, parameters := fragment }] }

/-- `</function>`. -/
def functionEnd (st : State) : Pass :=
  let token := Tag.functionEnd.token
  if st.currentFuncName.isNone then
    let (st, out) := st.appendUnparsedText token
    .next ({ st with suppressCurrentCall := false }.advanceStream token) token.length
      { normalText := out }
  else
    let opening : List ToolCallItem :=
      if st.jsonStarted then [] else [{ toolIndex := st.currentToolId, parameters := ['{'] }]
    .next ({ st with jsonStarted := true, currentFuncName := none }.advanceStream token) token.length
      { calls := opening ++ [{ toolIndex := st.currentToolId, parameters := ['}'] }] }

/-- `</tool_call>`. -/
def toolCallEnd (st : State) : Pass :=
  let token := Tag.toolCallEnd.token
  let (st, out) := match st.pendingToolPrefix with
    | some pending => { st with pendingToolPrefix := none }.appendNormalText (pending ++ token)
    | none =>
      if st.preserveToolWrapper then st.appendNormalText token
      else ({ st with pendingToolSeparator := some [] }, [])
  .next ({ st with
      isInsideToolCall := false
      suppressCurrentCall := false
      preserveToolWrapper := false }.advanceStream token) token.length { normalText := out }

/-- Text up to the next angle, or an angle that begins no tag. -/
def contentStep (st : State) (slice : Text) : Pass :=
  match slice.takeWhile (· ≠ '<') with
  | [] => if isPotentialTag slice then .wait else unparsed st ['<']
  | segment => unparsed st segment

section

variable (tools : Tools)

section

variable (st : State)

/-- A tag that counts where it stands. -/
def markup (slice : Text) : Tag → Pass
  | .toolCall => toolCallStart st
  | .function =>
    match find ['>'] slice with
    | none => .wait
    | some endAngle => functionStart tools st (slice.take (endAngle + 1))
  | .parameter =>
    match st.currentFuncName with
    | some func => parameterStep tools st func slice
    | none => contentStep st slice
  | .functionEnd => functionEnd st
  | .toolCallEnd => toolCallEnd st
  | .parameterEnd => contentStep st slice

/-- The front of the slice, outside fences and string values, where rejected functions are out of
the way.  Outside a wrapper only the beginning of a wrapper counts. -/
def frontStep (slice : Text) : Pass :=
  match headTag slice with
  | none => contentStep st slice
  | some tag =>
    if st.isInsideToolCall || tag = .toolCall then markup tools st slice tag
    else contentStep st slice

def tagStep (slice : Text) : Pass :=
  match rejectedTag st slice with
  | some pass => pass
  | none => frontStep tools (boundRejected st slice) slice

def step (text : Text) : Pass :=
  match st.streamString with
  | some s => emitStringParameter st s text
  | none =>
    if text = [] then .wait
    else
      match st.codeFence with
      | some fence => fencedStep st fence text
      | none =>
        if st.isInsideToolCall then tagStep tools st text
        else
          match streamFenceEvent st.streamAtLineStart text with
          | none => tagStep tools st text
          | some (0, .potential) => .wait
          | some (0, .opening fence n) =>
            literal { st with codeFence := some fence, codeFenceLineCanClose := true } (text.take n)
          | some (k + 1, _) => tagStep tools st (text.take (k + 1))

/-! ### What a pass does -/

end

end

/-- How many passes may follow that consume nothing. -/
def State.delay (st : State) : Nat :=
  (match st.streamString with
    | none => 0
    | some s => if s.leading then 2 else 1) +
  if st.codeFence.isSome && st.codeFenceLineCanClose then 1 else 0

/-- What holds of the state in every run: a fence is open only outside a wrapper, and a wrapper is
held back only inside one. -/
structure Valid (st : State) : Prop where
  outside : st.codeFence.isSome → st.isInsideToolCall = false
  pending : st.isInsideToolCall = false → st.pendingToolPrefix = none

/-- The pass raises only if `R`.  It consumes some of the text, or fewer passes that consume nothing
may follow, and it leaves a valid state. -/
def Sound (R : Prop) (st : State) (text : Text) : Pass → Prop
  | .wait => True
  | .raise => R
  | .next st' n _ =>
    (0 < n ∧ n ≤ text.length ∨ n = 0 ∧ st'.delay < st.delay) ∧ (Valid st → Valid st')

/-- There is a value that cannot be encoded. -/
def Tools.Fails (tools : Tools) : Prop :=
  ∃ func param value, tools.encodeValue func param value = none

variable {tools : Tools} {st st' : State} {text slice : Text} {n : Nat} {out : Output ToolCallItem}
  {t : Tag} {R : Prop} {c : Text} {fence : Fence}

theorem token_of_headTag (h : headTag slice = some t) : t.token <+: slice := by
  simpa using find?_some h

theorem token_length_le (h : headTag slice = some t) : t.token.length ≤ slice.length :=
  (token_of_headTag h).length_le

theorem token_length_pos (t : Tag) : 0 < t.token.length := by
  cases t <;> decide

theorem find_angle_lt {k : Nat} (h : find ['>'] slice = some k) : k < slice.length :=
  find_add_length_le h

theorem valueEnding_length {u : Unit} {c : Nat} (h : valueEnding u text = some c) :
    c ≤ text.length := by
  rw [valueEnding] at h
  split at h
  · rename_i ht
    cases h
    exact token_length_le ht
  · cases h
    exact Nat.zero_le _
  · cases h
    exact Nat.zero_le _
  · cases h

theorem valueEnd_le {stop consume : Nat} (h : valueEnd text = some (stop, consume)) :
    stop < text.length ∧ stop + consume ≤ text.length := by
  have hlt := lt_length_of_firstMatch h
  have hle := valueEnding_length (test_of_firstMatch h)
  rw [length_drop] at hle
  omega

theorem State.delay_le (st : State) : st.delay ≤ 3 := by
  rw [delay]
  split <;> split_ifs <;> omega

theorem Sound.le (h : Sound R st text (.next st' n out)) : n ≤ text.length := by
  rcases h.1 with h | h <;> omega

theorem valid_of_none (hf : st.codeFence = none)
    (hp : st.isInsideToolCall = false → st.pendingToolPrefix = none) : Valid st :=
  ⟨fun h => absurd h (by rw [hf]; exact Bool.false_ne_true), hp⟩

theorem literal_consumes (h : literal st text = .next st' n out) : n = text.length := by
  cases h
  rfl

theorem unparsed_consumes (h : unparsed st text = .next st' n out) : n = text.length := by
  cases h
  rfl

theorem literal_sound {st₁ : State} (hpos : 0 < c.length) (hle : c.length ≤ text.length)
    (hv : Valid st → Valid st₁) : Sound R st text (literal st₁ c) :=
  ⟨.inl ⟨hpos, hle⟩, fun h => ⟨(hv h).outside, (hv h).pending⟩⟩

theorem appendUnparsedText_valid (hv : Valid st) (c : Text) : Valid (st.appendUnparsedText c).1 := by
  rw [State.appendUnparsedText]
  split
  · rename_i pending hp
    refine ⟨hv.outside, fun hin => ?_⟩
    rw [hv.pending hin] at hp
    cases hp
  · split_ifs <;> exact ⟨hv.outside, hv.pending⟩

theorem unparsed_sound (hpos : 0 < c.length) (hle : c.length ≤ text.length) :
    Sound R st text (unparsed st c) :=
  ⟨.inl ⟨hpos, hle⟩, fun hv =>
    ⟨(appendUnparsedText_valid hv c).outside, (appendUnparsedText_valid hv c).pending⟩⟩

theorem rejectedTag_sound {pass : Pass} (h : rejectedTag st slice = some pass) :
    Sound R st slice pass := by
  rw [rejectedTag] at h
  split at h
  · cases h
  split at h
  · split at h
    · cases h
      trivial
    · rename_i k hk
      cases h
      have hlen := length_take_of_le (i := k + 1) (find_angle_lt hk)
      exact literal_sound (by omega) (length_take_le' _ _) fun hv => ⟨hv.outside, hv.pending⟩
  · rename_i ht
    cases h
    exact literal_sound (token_length_pos _) (token_length_le ht) fun hv =>
      ⟨hv.outside, hv.pending⟩
  · rename_i ht
    cases h
    exact literal_sound (token_length_pos _) (token_length_le ht) fun hv =>
      ⟨hv.outside, hv.pending⟩
  · rename_i ht
    split at h
    · cases h
    · cases h
      exact literal_sound (token_length_pos _) (token_length_le ht) fun hv =>
        ⟨hv.outside, hv.pending⟩
  · cases h

theorem parameterStep_sound (func : Text) :
    Sound tools.Fails st slice (parameterStep tools st func slice) := by
  rw [parameterStep]
  split
  · trivial
  rename_i nameEnd hname
  have hlt := find_angle_lt hname
  simp only
  split
  · exact ⟨.inl ⟨Nat.succ_pos _, hlt⟩, fun hv => ⟨hv.outside, hv.pending⟩⟩
  split
  · trivial
  rename_i stop consume hstop
  have hle := (valueEnd_le hstop).2
  rw [length_drop] at hle
  split
  · rename_i hnone
    exact ⟨_, _, _, hnone⟩
  · exact ⟨.inl (by omega), fun hv => ⟨hv.outside, hv.pending⟩⟩

theorem contentStep_sound : Sound R st slice (contentStep st slice) := by
  rw [contentStep]
  split
  · split_ifs with hp
    · trivial
    · refine unparsed_sound Nat.zero_lt_one ?_
      cases slice with
      | nil => exact absurd rfl hp
      | cons c slice => exact Nat.succ_le_succ (Nat.zero_le _)
  · rename_i segment hne
    exact unparsed_sound (length_pos_iff.mpr hne) (takeWhile_sublist _).length_le

theorem functionStart_sound {tag : Text} (hf : st.codeFence = none) (hpos : 0 < tag.length)
    (hle : tag.length ≤ slice.length) : Sound R st slice (functionStart tools st tag) := by
  rw [functionStart]
  split <;> exact ⟨.inl ⟨hpos, hle⟩, fun _ => valid_of_none hf fun _ => rfl⟩

theorem functionEnd_sound (ht : headTag slice = some .functionEnd) :
    Sound R st slice (functionEnd st) := by
  rw [functionEnd]
  split
  · refine ⟨.inl ⟨token_length_pos _, token_length_le ht⟩, fun hv => ?_⟩
    have hv := appendUnparsedText_valid hv Tag.functionEnd.token
    exact ⟨hv.outside, hv.pending⟩
  · exact ⟨.inl ⟨token_length_pos _, token_length_le ht⟩, fun hv => ⟨hv.outside, hv.pending⟩⟩

theorem markup_sound (hf : st.codeFence = none) (ht : headTag slice = some t) :
    Sound tools.Fails st slice (markup tools st slice t) := by
  have hlen := token_length_le ht
  cases t with
  | toolCall =>
    rw [markup, toolCallStart]
    rcases st.pendingToolPrefix with - | pending <;>
      exact ⟨.inl ⟨token_length_pos _, hlen⟩, fun _ => valid_of_none hf nofun⟩
  | toolCallEnd =>
    refine ⟨.inl ⟨token_length_pos _, hlen⟩, fun _ => ?_⟩
    rcases hp : st.pendingToolPrefix with - | pending
    · simp only
      split
      · exact valid_of_none hf fun _ => hp
      · exact valid_of_none hf fun _ => rfl
    · exact valid_of_none hf fun _ => rfl
  | function =>
    rw [markup]
    split
    · trivial
    · rename_i k hk
      have hlen := length_take_of_le (i := k + 1) (find_angle_lt hk)
      exact functionStart_sound hf (by omega) (length_take_le' _ _)
  | functionEnd => exact functionEnd_sound ht
  | parameter =>
    rw [markup]
    split
    · exact parameterStep_sound _
    · exact contentStep_sound
  | parameterEnd => exact contentStep_sound

theorem tagStep_sound (tools : Tools) (slice : Text) (hf : st.codeFence = none) :
    Sound tools.Fails st slice (tagStep tools st slice) := by
  rw [tagStep]
  split
  · rename_i pass hpass
    exact rejectedTag_sound hpass
  have hbound : (boundRejected st slice).codeFence = none ∧ ∀ pass,
      Sound tools.Fails (boundRejected st slice) slice pass → Sound tools.Fails st slice pass := by
    rw [boundRejected]
    split
    · refine ⟨hf, fun pass h => ?_⟩
      rcases pass with - | - | ⟨st', n, out⟩
      · trivial
      · exact h
      · exact ⟨h.1, fun hv => h.2 ⟨hv.outside, hv.pending⟩⟩
    · exact ⟨hf, fun _ h => h⟩
  refine hbound.2 _ ?_
  rw [frontStep]
  split
  · exact contentStep_sound
  · rename_i t ht
    split_ifs
    · exact markup_sound hbound.1 ht
    · exact contentStep_sound

theorem emitString_sound {s : StreamString} (hs : st.streamString = some s) :
    Sound R st text (emitStringParameter st s text) := by
  unfold emitStringParameter
  split
  · rename_i hl
    split
    · trivial
    simp only
    split
    · exact ⟨.inl ⟨Nat.zero_lt_one, Nat.succ_le_succ (Nat.zero_le _)⟩, fun hv =>
        ⟨hv.outside, hv.pending⟩⟩
    · refine ⟨.inr ⟨rfl, ?_⟩, fun hv => ⟨hv.outside, hv.pending⟩⟩
      simp only [State.delay, hs, hl]
      simp
  · rename_i hl
    simp only
    split
    · rename_i stop consume hstop
      refine ⟨?_, fun hv => ⟨hv.outside, hv.pending⟩⟩
      rcases Nat.eq_zero_or_pos (stop + consume) with h0 | hpos
      · refine .inr ⟨h0, ?_⟩
        simp only [State.delay, State.advanceStream, hs, hl]
        simp
      · exact .inl ⟨hpos, (valueEnd_le hstop).2⟩
    · split
      · trivial
      · rename_i hadv
        exact ⟨.inl ⟨Nat.pos_of_ne_zero hadv, Nat.sub_le _ _⟩, fun hv => ⟨hv.outside, hv.pending⟩⟩

theorem fencedStep_sound (hf : st.codeFence = some fence) (htext : text ≠ []) :
    Sound R st text (fencedStep st fence text) := by
  have hin (hv : Valid st) : st.isInsideToolCall = false := hv.outside (by rw [hf]; rfl)
  rw [fencedStep]
  split
  · split_ifs with hcan hcould
    · exact literal_sound (length_pos_iff.mpr htext) le_rfl id
    · trivial
    · refine ⟨.inr ⟨rfl, ?_⟩, fun hv => ⟨fun _ => hin hv, hv.pending⟩⟩
      have hcan' : st.codeFenceLineCanClose := by simpa using hcan
      simp only [State.delay, hf, hcan']
      simp
  · rename_i k hk
    have hle := streamLineEnd_le hk
    refine literal_sound ?_ (length_take_le' _ _) fun hv => ⟨fun _ => hin hv, hv.pending⟩
    rw [length_take_of_le hle.2]
    exact hle.1

theorem opening_le {b : Bool}
    (h : streamFenceEvent b text = some (0, .opening fence n)) : 0 < n ∧ n ≤ text.length := by
  have htest := test_of_firstMatch h
  rw [take_zero, contextAfter_nil, drop_zero, fenceTest] at htest
  split_ifs at htest
  exact lineEvent_opening_le htest

theorem step_sound (tools : Tools) (st : State) (text : Text) :
    Sound tools.Fails st text (step tools st text) := by
  rw [step]
  split
  · rename_i s hs
    exact emitString_sound hs
  split
  · trivial
  rename_i htext
  split
  · rename_i fence hf
    exact fencedStep_sound hf htext
  rename_i hf
  split
  · exact tagStep_sound tools text hf
  rename_i hin
  split
  · exact tagStep_sound tools text hf
  · trivial
  · rename_i fence k hk
    have hle := opening_le hk
    refine literal_sound ?_ (length_take_le' _ _) fun hv => ⟨fun _ => ?_, hv.pending⟩
    · rw [length_take_of_le hle.2]
      exact hle.1
    · simpa using hin
  · rename_i k _ _
    have h := tagStep_sound tools (text.take (k + 1)) hf
    rcases hstep : tagStep tools st (text.take (k + 1)) with - | - | ⟨st', n, out⟩ <;> rw [hstep] at h
    · trivial
    · exact h
    · exact ⟨h.1.imp_left fun h => ⟨h.1, h.2.trans (length_take_le' _ _)⟩, h.2⟩

/-- Only a value that cannot be encoded raises. -/
theorem fails_of_raise (h : step tools st text = .raise) : tools.Fails := by
  have hsound := step_sound tools st text
  rwa [h] at hsound

/-! ### Increments -/

/-- The loop. -/
def scanner (tools : Tools) : Scanner Char State (Output ToolCallItem) where
  step := step tools
  rank st text := 4 * text.length + st.delay
  rank_lt {st text st' n out} h := by
    have h₁ := st'.delay_le
    have hstep := step_sound tools st text
    rw [show step tools st text = _ from h] at hstep
    rw [length_drop]
    rcases hstep.1 with ⟨hpos, hle⟩ | ⟨rfl, hlt⟩ <;> omega

structure Detector where
  state : State := {}
  buffer : Text := []

/-- `none` when an exception gets out. -/
def parseStreamingIncrement (tools : Tools) (d : Detector) (newText : Text) :
    Option (Output ToolCallItem × Detector) :=
  ((scanner tools).drain d.state (d.buffer ++ newText)).map fun (out, st, rest) => (out, ⟨st, rest⟩)

/-- What is given out at the end. -/
def finish (d : Detector) : Output ToolCallItem :=
  if d.state.codeFence.isSome then { normalText := (d.state.appendNormalText d.buffer).2 }
  else if d.state.currentFuncName.isNone then
    { normalText := (d.state.appendNormalText (d.state.pendingToolPrefix.getD [] ++ d.buffer)).2 }
  else 0

def streamFrom (tools : Tools) : Detector → List Text → Option (Output ToolCallItem)
  | d, [] => some (finish d)
  | d, chunk :: chunks =>
    (parseStreamingIncrement tools d chunk).bind fun (out, d') =>
      (streamFrom tools d' chunks).map (out + ·)

/-- All increments, then `finish`. -/
def stream (tools : Tools) (chunks : List Text) : Option (Output ToolCallItem) :=
  streamFrom tools {} chunks

end SglangRuntime.Qwen3Coder
