import Mathlib

/-!
# Foundation — a text that is consumed as it arrives

A `Scanner` looks at what it has of a text and either waits for more, raises, or consumes a
beginning of it, changes its state and puts something out.  `drain` lets it run until it waits, and
`feed` hands it a text in pieces.

A scanner is `Steady` when a step it takes on a text is no loss if the text goes on: running on
with the rest is what it would have done with the whole text from the start, up to how the output
is cut.  For a steady scanner the pieces do not matter (`Steady.feed_eq`): the only thing to prove
about it is what one step does to a longer text.
-/

namespace Foundation

open Option

inductive Move (σ ω : Type*) where
  | wait
  | raise
  | next (st : σ) (n : Nat) (out : ω)

def Move.map {σ ω τ : Type*} (f : ω → τ) : Move σ ω → Move σ τ
  | .wait => .wait
  | .raise => .raise
  | .next st n out => .next st n (f out)

/-- The rank bounds the number of steps, some of which consume nothing. -/
structure Scanner (α σ ω : Type*) where
  step : σ → List α → Move σ ω
  rank : σ → List α → Nat
  rank_lt : ∀ {st text st' n out}, step st text = .next st' n out →
    rank st' (text.drop n) < rank st text

/-- An output put before the output of what follows. -/
def prepend {ω ρ : Type*} [Add ω] (out : ω) (run : Option (ω × ρ)) : Option (ω × ρ) :=
  run.map (Prod.map (out + ·) id)

section Prepend

variable {ω τ ρ : Type*} [AddMonoid ω] [AddMonoid τ] (out out' : ω) (run : Option (ω × ρ))

@[simp] theorem prepend_none : prepend out (none : Option (ω × ρ)) = none := rfl

@[simp] theorem prepend_some (r : ρ) : prepend out (some (out', r)) = some (out + out', r) := rfl

@[simp] theorem prepend_zero : prepend 0 run = run := by
  rcases run with - | ⟨o, r⟩
  · rfl
  · rw [prepend_some, zero_add]

theorem prepend_prepend : prepend out (prepend out' run) = prepend (out + out') run := by
  rcases run with - | ⟨o, r⟩
  · rfl
  · rw [prepend_some, prepend_some, prepend_some, add_assoc]

theorem map_prepend (f : ω →+ τ) :
    (prepend out run).map (Prod.map f id) = prepend (f out) (run.map (Prod.map f id)) := by
  rcases run with - | ⟨o, r⟩
  · rfl
  · rw [prepend_some, map_some, map_some, Prod.map_apply, Prod.map_apply, map_add,
      prepend_some]

end Prepend

namespace Scanner

variable {α σ ω τ : Type*} (S : Scanner α σ ω)

/-- The scanner with its output seen through `f`. -/
def map (f : ω → τ) : Scanner α σ τ where
  step st text := (S.step st text).map f
  rank := S.rank
  rank_lt {st text st' n out} h := by
    rcases hs : S.step st text with - | - | ⟨st₁, m, o⟩ <;> rw [hs] at h <;> cases h
    exact S.rank_lt hs

/-- Induction over the steps of a run. -/
theorem drain_induct {P : σ → List α → Prop}
    (h : ∀ st text, (∀ st' n out, S.step st text = .next st' n out → P st' (text.drop n)) → P st text)
    (st : σ) (text : List α) : P st text := by
  induction hr : S.rank st text using Nat.strongRecOn generalizing st text with
  | _ r ih =>
    refine h st text fun st' n out hs => ih _ ?_ _ _ rfl
    rw [← hr]
    exact S.rank_lt hs

variable [AddMonoid ω] [AddMonoid τ]

def loop : Nat → σ → List α → Option (ω × σ × List α)
  | 0, _, _ => none
  | fuel + 1, st, text =>
    match S.step st text with
    | .wait => some (0, st, text)
    | .raise => none
    | .next st' n out => prepend out (loop fuel st' (text.drop n))

/-- The scanner runs until it waits; `none` when it raises. -/
def drain (st : σ) (text : List α) : Option (ω × σ × List α) :=
  S.loop (S.rank st text + 1) st text

/-- The pieces one after the other, each put behind what was left. -/
def feed : σ → List α → List (List α) → Option (ω × σ × List α)
  | st, buffer, [] => some (0, st, buffer)
  | st, buffer, piece :: pieces =>
    (S.drain st (buffer ++ piece)).bind fun (o, st', rest) => prepend o (feed st' rest pieces)

variable {S} {st st' : σ} {text new rest : List α} {n fuel : Nat} {out : ω}

theorem loop_eq_of_lt (h : S.rank st text < fuel) : S.loop fuel st text = S.drain st text := by
  induction fuel using Nat.strongRecOn generalizing st text with
  | _ fuel ih =>
    obtain ⟨fuel, rfl⟩ := Nat.exists_eq_succ_of_ne_zero (Nat.ne_zero_of_lt h)
    rw [drain, loop, loop]
    rcases hs : S.step st text with - | - | ⟨st', n, out⟩
    · rfl
    · rfl
    · have hlt := S.rank_lt hs
      simp only
      rcases Nat.lt_or_ge (S.rank st text) fuel with hf | hf
      · rw [ih fuel (Nat.lt_succ_self fuel) (Nat.lt_trans hlt hf),
          ih _ (Nat.lt_trans hf (Nat.lt_succ_self fuel)) hlt]
      · rw [show S.rank st text = fuel by omega]

theorem drain_of_wait (h : S.step st text = .wait) : S.drain st text = some (0, st, text) := by
  rw [drain, loop, h]

theorem drain_of_raise (h : S.step st text = .raise) : S.drain st text = none := by
  rw [drain, loop, h]

theorem drain_of_next (h : S.step st text = .next st' n out) :
    S.drain st text = prepend out (S.drain st' (text.drop n)) := by
  rw [drain, loop, h]
  simp only [loop_eq_of_lt (S.rank_lt h)]

/-- What every step keeps, a run keeps, and it leaves a text on which the scanner waits. -/
theorem drain_keeps {P : σ → Prop}
    (hkeep : ∀ {st text st' n out}, P st → S.step st text = .next st' n out → P st')
    (hst : P st) (h : S.drain st text = some (out, st', rest)) :
    P st' ∧ S.step st' rest = .wait := by
  induction st, text using S.drain_induct generalizing out with
  | _ st text ih =>
    rcases hs : S.step st text with - | - | ⟨st₁, n, o⟩
    · rw [drain_of_wait hs] at h
      cases h
      exact ⟨hst, hs⟩
    · rw [drain_of_raise hs] at h
      cases h
    · rw [drain_of_next hs, prepend, map_eq_some_iff] at h
      obtain ⟨⟨o', st₂, r⟩, hd, heq⟩ := h
      cases heq
      exact ih _ _ _ hs (hkeep hst hs) hd

/-- A scanner that never raises comes to an end. -/
theorem drain_isSome (h : ∀ st text, S.step st text ≠ .raise) (st : σ) (text : List α) :
    (S.drain st text).isSome := by
  induction st, text using S.drain_induct with
  | _ st text ih =>
    rcases hs : S.step st text with - | - | ⟨st', n, o⟩
    · rw [drain_of_wait hs]
      rfl
    · exact absurd hs (h st text)
    · rw [drain_of_next hs, prepend, isSome_map]
      exact ih _ _ _ hs

/-- A run seen through `f` is the run of the scanner seen through `f`. -/
theorem drain_map (f : ω →+ τ) (st : σ) (text : List α) :
    (S.map f).drain st text = (S.drain st text).map (Prod.map f id) := by
  induction st, text using S.drain_induct with
  | _ st text ih =>
    have hstep : (S.map f).step st text = (S.step st text).map f := rfl
    rcases hs : S.step st text with - | - | ⟨st', n, o⟩ <;> rw [hs, Move.map] at hstep
    · rw [drain_of_wait hs, drain_of_wait hstep, map_some, Prod.map_apply, map_zero, id]
    · rw [drain_of_raise hs, drain_of_raise hstep, map_none]
    · rw [drain_of_next hs, drain_of_next hstep, ih _ _ _ hs, map_prepend]

theorem feed_map (f : ω →+ τ) (st : σ) (buffer : List α) (pieces : List (List α)) :
    (S.map f).feed st buffer pieces = (S.feed st buffer pieces).map (Prod.map f id) := by
  induction pieces generalizing st buffer with
  | nil => rw [feed, feed, map_some, Prod.map_apply, map_zero, id]
  | cons piece pieces ih =>
    rw [feed, feed, drain_map]
    rcases S.drain st (buffer ++ piece) with - | ⟨o, st', rest⟩
    · rfl
    · simp only [map_some, bind_some, Prod.map_apply, id, ih, map_prepend]

/-- Two ways that meet: the first has put out more by then. -/
theorem drain_of_meet {st₁ st₂ : σ} {text₁ text₂ : List α} {m : Nat} {out₂ : ω}
    (h₁ : S.step st₁ text₁ = .next st' n (out + out₂)) (h₂ : S.step st₂ text₂ = .next st' m out₂)
    (htext : text₁.drop n = text₂.drop m) :
    S.drain st₁ text₁ = prepend out (S.drain st₂ text₂) := by
  rw [drain_of_next h₁, drain_of_next h₂, htext, prepend_prepend]

/-! ### Steady scanners -/

/-- On the states with `Inv`, a step is no loss if the text goes on. -/
structure Steady (S : Scanner α σ ω) (Inv : σ → Prop) : Prop where
  keeps : ∀ {st text st' n out}, Inv st → S.step st text = .next st' n out → Inv st'
  raise : ∀ {st text}, Inv st → S.step st text = .raise → ∀ new, S.step st (text ++ new) = .raise
  next : ∀ {st text st' n out}, Inv st → S.step st text = .next st' n out → ∀ new,
    S.drain st (text ++ new) = prepend out (S.drain st' (text.drop n ++ new))

variable {Inv : σ → Prop}

theorem Steady.drain_append (h : Steady S Inv) (hst : Inv st) (text new : List α) :
    S.drain st (text ++ new) = (S.drain st text).bind fun (o, st', rest) =>
      prepend o (S.drain st' (rest ++ new)) := by
  induction st, text using S.drain_induct with
  | _ st text ih =>
    rcases hs : S.step st text with - | - | ⟨st', n, out⟩
    · simp only [drain_of_wait hs, bind_some, prepend_zero]
    · rw [drain_of_raise hs, drain_of_raise (h.raise hst hs new)]
      rfl
    · rw [h.next hst hs, ih _ _ _ hs (h.keeps hst hs), drain_of_next hs]
      rcases S.drain st' (text.drop n) with - | ⟨o, st₁, r⟩
      · rfl
      · simp only [prepend_some, bind_some, prepend_prepend]

/-- The pieces do not matter. -/
theorem Steady.feed_eq (h : Steady S Inv) (hst : Inv st) {buffer : List α}
    (hwait : S.step st buffer = .wait) (pieces : List (List α)) :
    S.feed st buffer pieces = S.drain st (buffer ++ pieces.flatten) := by
  induction pieces generalizing st buffer with
  | nil => rw [feed, List.flatten_nil, List.append_nil, drain_of_wait hwait]
  | cons piece pieces ih =>
    rw [feed, List.flatten_cons, ← List.append_assoc, h.drain_append hst (buffer ++ piece)]
    rcases hd : S.drain st (buffer ++ piece) with - | ⟨o, st', rest⟩
    · rfl
    · obtain ⟨hst', hwait⟩ := drain_keeps h.keeps hst hd
      simp only [bind_some, ih hst' hwait]

end Scanner

end Foundation
