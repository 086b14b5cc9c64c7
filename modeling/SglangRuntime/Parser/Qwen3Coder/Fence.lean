import SglangRuntime.Foundation.FirstMatch
import Mathlib.Data.List.TakeWhile

/-!
# Qwen3Coder — the Markdown fences

The fence tracker of `function_call/qwen3_coder_detector.py`.  Its regular expressions are read
here as functions on the line they are matched against: a line opens a fence when it has at most
three blanks, a run of at least three markers and, behind backticks, no further backtick
(`openingOf`); an unfinished line may still become such a line (`mayOpen`).  A fence is closed by a
line with at most three blanks, at least as many markers and nothing but blanks behind them
(`isStreamFenceClose`, and `couldBeStreamFenceClose` for an unfinished line).

`streamFenceEvent` is the search along the text for the next such line.  The expressions match at
the beginnings of lines only, so what precedes a place is its context.
-/

namespace SglangRuntime.Qwen3Coder

open Foundation List Bool

abbrev Text := List Char

def isEol (c : Char) : Bool := c = '\r' || c = '\n'

/-- The first line, without its end. -/
def lineOf (text : Text) : Text := text.takeWhile (!isEol ·)

/-- How much the end of a line takes: a carriage return and a line feed count as one end. -/
def eolLength (c : Char) (rest : Text) : Nat :=
  if c = '\r' ∧ rest.head? = some '\n' then 2 else 1

/-- `_stream_line_end`. -/
def streamLineEnd (text : Text) : Option Nat :=
  match text.dropWhile (!isEol ·) with
  | [] => none
  | c :: rest => some ((lineOf text).length + eolLength c rest)

/-- An open fence: its marker and how many of them opened it. -/
structure Fence where
  marker : Char
  length : Nat
  marker_eq : marker = '`' ∨ marker = '~'
  three_le : 3 ≤ length
deriving DecidableEq

/-- What the line has behind at most three blanks: the marker, how often, and the rest. -/
def markerRun (line : Text) : Option (Char × Nat × Text) :=
  match line.dropWhile (· = ' ') with
  | [] => none
  | c :: rest =>
    if (line.takeWhile (· = ' ')).length ≤ 3 ∧ (c = '`' ∨ c = '~') then
      some (c, ((c :: rest).takeWhile (· = c)).length, (c :: rest).dropWhile (· = c))
    else none

/-- `_find_fence_open` on one line. -/
def openingOf (line : Text) : Option Fence :=
  match markerRun line with
  | none => none
  | some (c, n, info) =>
    if h : (c = '`' ∨ c = '~') ∧ 3 ≤ n ∧ ¬ (c = '`' ∧ '`' ∈ info) then some ⟨c, n, h.1, h.2.1⟩
    else none

/-- An unfinished line that can still become an opening one. -/
def mayOpen (tail : Text) : Bool :=
  (tail ≠ [] ∧ tail.length ≤ 3 ∧ tail.all (· = ' ')) ||
    match markerRun tail with
    | none => false
    | some (c, n, info) => ¬ (n < 3 ∧ info ≠ []) ∧ ¬ (c = '`' ∧ '`' ∈ info)

inductive FenceEvent where
  | opening (fence : Fence) (length : Nat)
  | potential

/-- What begins with the line at the front of the text. -/
def lineEvent (text : Text) : Option FenceEvent :=
  match streamLineEnd text with
  | some n => (openingOf (lineOf text)).map (.opening · n)
  | none => if mayOpen text then some .potential else none

variable (atLineStart : Bool)

def fenceTest (text : Text) : Option FenceEvent :=
  if atLineStart then lineEvent text else none

/-- `_stream_fence_event`: the first opening line, or else the last line if it can become one. -/
def streamFenceEvent (text : Text) : Option (Nat × FenceEvent) :=
  firstMatch isEol fenceTest atLineStart text

def isStreamFenceClose (fence : Fence) (line : Text) : Bool :=
  let content := lineOf line
  let markers := content.dropWhile (· = ' ')
  (content.takeWhile (· = ' ')).length ≤ 3 &&
    fence.length ≤ (markers.takeWhile (· = fence.marker)).length &&
    (markers.dropWhile (· = fence.marker)).all fun c => c = ' ' || c = '\t'

def couldBeStreamFenceClose (fence : Fence) (line : Text) : Bool :=
  let pos := min 3 (line.takeWhile (· = ' ')).length
  match line.drop pos with
  | [] => true
  | c :: rest =>
    c = fence.marker &&
      match (c :: rest).dropWhile (· = fence.marker) with
      | [] => true
      | d :: tail =>
        fence.length ≤ ((c :: rest).takeWhile (· = fence.marker)).length &&
          (d :: tail).all fun c => c = ' ' || c = '\t' || c = '\r'

/-! ### Lines -/

section Runs

variable {α : Type*} {p : α → Bool} {w x : List α}

theorem takeWhile_append_of_stop (h : w.dropWhile p ≠ []) :
    (w ++ x).takeWhile p = w.takeWhile p := by
  have hne : (w.takeWhile p).length ≠ w.length := by
    intro heq
    have hlen := congrArg List.length (takeWhile_append_dropWhile (p := p) (l := w))
    rw [length_append, heq] at hlen
    exact h (eq_nil_of_length_eq_zero (by omega))
  rw [takeWhile_append, if_neg hne]

theorem dropWhile_append_of_stop (h : w.dropWhile p ≠ []) :
    (w ++ x).dropWhile p = w.dropWhile p ++ x := by
  rw [dropWhile_append, if_neg (by simpa using h)]

end Runs

variable {l r w v : Text} {e : Char} {n k : Nat} {b : Bool} {fence : Fence}

/-- A text is one unfinished line, or a line, its end and what follows. -/
theorem exists_line (text : Text) : (∀ c ∈ text, isEol c = false) ∨
    ∃ l e r, text = l ++ e :: r ∧ (∀ c ∈ l, isEol c = false) ∧ isEol e := by
  induction text with
  | nil => exact .inl fun c hc => nomatch hc
  | cons a text ih =>
    rcases ha : isEol a with - | -
    · rcases ih with h | ⟨l, e, r, rfl, hl, he⟩
      · exact .inl (forall_mem_cons.mpr ⟨ha, h⟩)
      · exact .inr ⟨a :: l, e, r, rfl, forall_mem_cons.mpr ⟨ha, hl⟩, he⟩
    · exact .inr ⟨[], a, text, rfl, fun c hc => (nomatch hc), ha⟩

section

variable (hl : ∀ c ∈ l, isEol c = false)
include hl

theorem lineOf_append (text : Text) : lineOf (l ++ text) = l ++ lineOf text :=
  takeWhile_append_of_pos fun c hc => by rw [hl c hc]; rfl

theorem lineOf_line (he : isEol e) : lineOf (l ++ e :: r) = l := by
  rw [lineOf_append hl, lineOf, takeWhile_cons_of_neg (by simp [he]), append_nil]

theorem streamLineEnd_of_forall : streamLineEnd l = none := by
  rw [streamLineEnd, dropWhile_eq_nil_iff.mpr fun c hc => by rw [hl c hc]; rfl]

theorem streamLineEnd_line (he : isEol e) :
    streamLineEnd (l ++ e :: r) = some (l.length + eolLength e r) := by
  have hdrop : (l ++ e :: r).dropWhile (!isEol ·) = e :: r := by
    rw [dropWhile_append_of_pos fun c hc => by rw [hl c hc]; rfl,
      dropWhile_cons_of_neg (by simp [he])]
  rw [streamLineEnd, hdrop, lineOf_line hl he]

end

/-- What follows a finished line matters only if it completes a carriage return. -/
theorem eolLength_append (e : Char) (r v : Text) : eolLength e (r ++ v) = eolLength e r ∨
      e = '\r' ∧ r = [] ∧ v.head? = some '\n' ∧ eolLength e r = 1 ∧ eolLength e (r ++ v) = 2 := by
  cases r with
  | cons a r => exact .inl rfl
  | nil =>
    by_cases h : e = '\r' ∧ v.head? = some '\n'
    · exact .inr ⟨h.1, rfl, h.2, by simp [eolLength], by simp [eolLength, h]⟩
    · exact .inl (by simp [eolLength, h])

theorem eolLength_pos (e : Char) (r : Text) : 0 < eolLength e r := by
  rw [eolLength]
  split_ifs <;> omega

theorem eolLength_le (e : Char) (r : Text) : eolLength e r ≤ (e :: r).length := by
  rw [eolLength]
  split_ifs with h
  · cases r with
    | nil => cases h.2
    | cons a r => exact Nat.succ_le_succ (Nat.succ_le_succ (Nat.zero_le _))
  · exact Nat.succ_le_succ (Nat.zero_le _)

theorem streamLineEnd_le (h : streamLineEnd w = some n) : 0 < n ∧ n ≤ w.length := by
  rcases exists_line w with hw | ⟨l, e, r, rfl, hl, he⟩
  · rw [streamLineEnd_of_forall hw] at h
    cases h
  rw [streamLineEnd_line hl he] at h
  cases h
  have h₁ := eolLength_pos e r
  have h₂ := eolLength_le e r
  rw [length_append]
  omega

/-! ### Opening lines -/

section

variable (hw : w ≠ [])
include hw

section

variable (h : mayOpen w = false)
include h

theorem markerRun_append : markerRun (w ++ v) = none ∨
      ∃ c n info, info ≠ [] ∧ ¬ (3 ≤ n ∧ ¬ (c = '`' ∧ '`' ∈ info)) ∧
        markerRun (w ++ v) = some (c, n, info ++ v) := by
  rw [mayOpen, or_eq_false_iff] at h
  obtain ⟨hblank, hrun⟩ := h
  rcases hrest : w.dropWhile (· = ' ') with - | ⟨c, rest⟩
  · -- nothing but blanks, more than three of them
    have hall : w.all (· = ' ') := by
      rw [all_eq_true]
      exact dropWhile_eq_nil_iff.mp hrest
    have hlen : 3 < w.length := by
      by_contra hle
      exact absurd (decide_eq_true (p := w ≠ [] ∧ w.length ≤ 3 ∧ w.all (· = ' '))
        ⟨hw, Nat.not_lt.mp hle, hall⟩) (by rw [hblank]; decide)
    have htake : 3 < ((w ++ v).takeWhile (· = ' ')).length := by
      rw [takeWhile_append_of_pos (all_eq_true.mp hall), length_append]
      omega
    refine .inl ?_
    rw [markerRun]
    split
    · rfl
    · rw [if_neg fun hle => by omega]
  · have hstop : w.dropWhile (· = ' ') ≠ [] := by rw [hrest]; exact cons_ne_nil c rest
    rw [markerRun, hrest] at hrun
    simp only at hrun
    by_cases hc : (w.takeWhile (· = ' ')).length ≤ 3 ∧ (c = '`' ∨ c = '~')
    · rw [if_pos hc] at hrun
      simp only [decide_eq_false_iff_not] at hrun
      have hinfo : (c :: rest).dropWhile (· = c) ≠ [] := by
        intro hnil
        rw [hnil] at hrun
        simp at hrun
      refine .inr ⟨c, ((c :: rest).takeWhile (· = c)).length, _, hinfo,
        fun h => hrun ⟨fun h' => ?_, h.2⟩, ?_⟩
      · exact absurd h.1 (Nat.not_le.mpr h'.1)
      · rw [markerRun, dropWhile_append_of_stop hstop, takeWhile_append_of_stop hstop, hrest]
        simp only [cons_append, if_pos hc]
        rw [← cons_append, takeWhile_append_of_stop hinfo, dropWhile_append_of_stop hinfo]
    · refine .inl ?_
      rw [markerRun, dropWhile_append_of_stop hstop, takeWhile_append_of_stop hstop, hrest]
      exact if_neg hc

/-- A line that cannot open a fence cannot do so with more text either. -/
theorem openingOf_append : openingOf (w ++ v) = none := by
  rcases markerRun_append (v := v) hw h with hrun | ⟨c, n, info, -, hno, hrun⟩
  · rw [openingOf, hrun]
  · rw [openingOf, hrun]
    exact dif_neg fun h' => hno ⟨h'.2.1, fun hmem =>
      h'.2.2 ⟨hmem.1, mem_append_left v hmem.2⟩⟩

theorem mayOpen_append : mayOpen (w ++ v) = false := by
  have hblank : ¬ (w ++ v ≠ [] ∧ (w ++ v).length ≤ 3 ∧ (w ++ v).all (· = ' ')) := by
    rintro ⟨-, hlen, hall⟩
    rw [mayOpen, or_eq_false_iff] at h
    rw [length_append] at hlen
    rw [all_append, and_eq_true] at hall
    exact absurd (decide_eq_true (p := w ≠ [] ∧ w.length ≤ 3 ∧ w.all (· = ' '))
      ⟨hw, by omega, hall.1⟩) (by rw [h.1]; decide)
  rcases markerRun_append (v := v) hw h with hrun | ⟨c, n, info, hne, hno, hrun⟩
  · rw [mayOpen, hrun, Bool.or_false]
    exact decide_eq_false hblank
  rw [mayOpen, hrun, or_eq_false_iff]
  refine ⟨decide_eq_false hblank, decide_eq_false fun h' => hno ⟨?_, fun hmem =>
    h'.2 ⟨hmem.1, mem_append_left v hmem.2⟩⟩⟩
  by_contra hlt
  exact h'.1 ⟨Nat.not_le.mp hlt, append_ne_nil_of_left_ne_nil hne v⟩

end

theorem lineEvent_append (h : lineEvent w = none) (v : Text) :
    lineEvent (w ++ v) = none := by
  rcases exists_line w with hl | ⟨l, e, r, rfl, hl, he⟩
  · -- the line goes on in what follows
    have hmay : mayOpen w = false := by
      rw [lineEvent, streamLineEnd_of_forall hl] at h
      simpa using h
    rcases hend : streamLineEnd (w ++ v) with - | n
    · rw [lineEvent, hend]
      exact if_neg (by rw [mayOpen_append hw hmay]; exact false_ne_true)
    · rw [lineEvent, hend, lineOf_append hl, openingOf_append hw hmay]
      rfl
  · rw [lineEvent, streamLineEnd_line hl he, lineOf_line hl he, Option.map_eq_none_iff] at h
    rw [append_assoc, cons_append, lineEvent, streamLineEnd_line hl he, lineOf_line hl he,
      Option.map_eq_none_iff]
    exact h

end

/-- An opening line is one whatever follows; only a carriage return at the end of the text may
still get its line feed. -/
theorem lineEvent_opening_append (h : lineEvent w = some (.opening fence n)) (v : Text) :
    lineEvent (w ++ v) = some (.opening fence n) ∨
      n = w.length ∧ v.head? = some '\n' ∧ lineEvent (w ++ v) = some (.opening fence (n + 1)) := by
  rcases exists_line w with hl | ⟨l, e, r, rfl, hl, he⟩
  · rw [lineEvent, streamLineEnd_of_forall hl] at h
    split_ifs at h
    cases h
  rw [lineEvent, streamLineEnd_line hl he, lineOf_line hl he, Option.map_eq_some_iff] at h
  obtain ⟨f, hf, heq⟩ := h
  cases heq
  rw [append_assoc, cons_append, lineEvent, streamLineEnd_line hl he, lineOf_line hl he,
    hf]
  simp only [Option.map_some]
  rcases eolLength_append e r v with heq | ⟨-, rfl, hv, h₁, h₂⟩
  · exact .inl (by rw [heq])
  · refine .inr ⟨?_, hv, ?_⟩
    · rw [h₁, length_append]
      rfl
    · rw [h₁, h₂]

theorem lineEvent_opening_le (h : lineEvent w = some (.opening fence n)) :
    0 < n ∧ n ≤ w.length := by
  rw [lineEvent] at h
  rcases hend : streamLineEnd w with - | m <;> rw [hend] at h <;> simp only at h
  · split_ifs at h
    cases h
  · rw [Option.map_eq_some_iff] at h
    obtain ⟨f, -, heq⟩ := h
    cases heq
    exact streamLineEnd_le hend

theorem fenceTest_append (b : Bool) (w v : Text) (hw : w ≠ []) (h : fenceTest b w = none) :
    fenceTest b (w ++ v) = none := by
  cases b with
  | false => rfl
  | true => exact lineEvent_append hw h v

/-- A line that begins otherwise than with a blank or a marker opens nothing. -/
theorem fenceTest_cons_of_ne {c : Char} (h : c ≠ ' ') (h' : c ≠ '`') (h'' : c ≠ '~') (b : Bool)
    (text : Text) : fenceTest b (c :: text) = none := by
  cases b with
  | false => rfl
  | true =>
    have hmay : mayOpen [c] = false := by
      simp [mayOpen, markerRun, h, h', h'']
    have hopen : openingOf [] = none := rfl
    rcases hc : isEol c with - | -
    · have hnone : lineEvent [c] = none := by
        rw [lineEvent, streamLineEnd_of_forall (by simp [hc])]
        simp [hmay]
      exact lineEvent_append (cons_ne_nil c []) hnone text
    · have hend := streamLineEnd_line (l := []) (e := c) (r := text) (by simp) hc
      have hline := lineOf_line (l := []) (e := c) (r := text) (by simp) hc
      rw [nil_append] at hend hline
      rw [fenceTest, if_pos rfl, lineEvent, hend, hline, hopen]
      rfl

/-! ### Closing lines -/

theorem couldBeStreamFenceClose_append (h : couldBeStreamFenceClose fence w = false) (v : Text) :
    couldBeStreamFenceClose fence (w ++ v) = false := by
  rw [couldBeStreamFenceClose] at h
  rcases hrest : w.drop (min 3 (w.takeWhile (· = ' ')).length) with - | ⟨c, rest⟩
  · rw [hrest] at h
    cases h
  rw [hrest] at h
  have hlt : min 3 (w.takeWhile (· = ' ')).length < w.length := by
    by_contra hge
    rw [drop_eq_nil_of_le (Nat.not_lt.mp hge)] at hrest
    cases hrest
  have hpos : min 3 ((w ++ v).takeWhile (· = ' ')).length =
      min 3 (w.takeWhile (· = ' ')).length := by
    rw [takeWhile_append]
    split_ifs with hall
    · rw [length_append]
      omega
    · rfl
  rw [couldBeStreamFenceClose, hpos, drop_append_of_le_length (by omega), hrest]
  simp only [cons_append]
  rw [← cons_append]
  by_cases hc : c = fence.marker
  · simp only [hc, decide_true, Bool.true_and] at h ⊢
    rcases htail : (fence.marker :: rest).dropWhile (· = fence.marker) with - | ⟨d, tail⟩
    · rw [htail] at h
      cases h
    have hstop : (fence.marker :: rest).dropWhile (· = fence.marker) ≠ [] := by
      rw [htail]
      exact cons_ne_nil d tail
    rw [htail] at h
    rw [dropWhile_append_of_stop hstop, takeWhile_append_of_stop hstop, htail]
    simp only [cons_append] at h ⊢
    rw [← cons_append, all_append]
    rw [and_eq_false_iff] at h ⊢
    exact h.imp id fun h => by rw [h, Bool.false_and]
  · simp [hc]

theorem couldBe_of_isStreamFenceClose (h : isStreamFenceClose fence w) :
    couldBeStreamFenceClose fence (lineOf w) := by
  simp only [isStreamFenceClose, Bool.and_eq_true, decide_eq_true_eq] at h
  obtain ⟨⟨hle, hrun⟩, htail⟩ := h
  have hdrop : (lineOf w).drop (min 3 ((lineOf w).takeWhile (· = ' ')).length) =
      (lineOf w).dropWhile (· = ' ') := by
    have happ := takeWhile_append_dropWhile (p := (· = ' ')) (l := lineOf w)
    rw [min_eq_right hle]
    exact (congrArg (List.drop _) happ.symm).trans drop_left
  rw [couldBeStreamFenceClose, hdrop]
  rcases hrest : (lineOf w).dropWhile (· = ' ') with - | ⟨c, rest⟩
  · rfl
  rw [hrest] at hrun htail
  have hc : c = fence.marker := by
    by_contra hne
    rw [takeWhile_cons_of_neg (by simpa using hne), length_nil] at hrun
    have := fence.three_le
    omega
  simp only [hc, decide_true, Bool.true_and] at hrun htail ⊢
  rcases htl : (fence.marker :: rest).dropWhile (· = fence.marker) with - | ⟨d, tail⟩
  · rfl
  · rw [htl] at htail
    simp only [Bool.and_eq_true, decide_eq_true_eq]
    refine ⟨hrun, all_eq_true.mpr fun a ha => ?_⟩
    rw [all_eq_true.mp htail a ha, Bool.true_or]

/-- A line that cannot close the fence does not close it, however it goes on. -/
theorem isStreamFenceClose_append (hw : ∀ c ∈ w, isEol c = false)
    (h : couldBeStreamFenceClose fence w = false) (v : Text) :
    isStreamFenceClose fence (w ++ v) = false := by
  by_contra hclose
  rw [not_eq_false] at hclose
  have := couldBe_of_isStreamFenceClose hclose
  rw [lineOf_append hw, couldBeStreamFenceClose_append h] at this
  cases this

/-- An empty line closes no fence. -/
theorem isStreamFenceClose_eol (he : isEol e) (r : Text) :
    isStreamFenceClose fence (e :: r) = false := by
  have hline := lineOf_line (l := []) (e := e) (r := r) (by simp) he
  rw [nil_append] at hline
  have := fence.three_le
  simp [isStreamFenceClose, hline]
  omega

theorem isStreamFenceClose_congr (h : lineOf w = lineOf v) :
    isStreamFenceClose fence w = isStreamFenceClose fence v := by
  rw [isStreamFenceClose, isStreamFenceClose, h]

end SglangRuntime.Qwen3Coder
