import Mathlib.Data.List.Infix

/-!
# Foundation — searching a text that arrives in pieces

`find` is the place of the first occurrence of a token, and `partialSuffix` the length of the longest
end of a text that is a strict beginning of the token.  A searcher that passes on a text but holds
back that much of it cannot pass on the beginning of an occurrence: `Clear` says so of what was
passed on and what is held, for everything that may still arrive.
-/

namespace Foundation

open List

variable {α : Type*} [DecidableEq α] {tok text out held new : List α} {i j : Nat}

/-- The place of the first occurrence of the token. -/
def find (tok : List α) : List α → Option Nat
  | [] => if tok = [] then some 0 else none
  | a :: text => if tok <+: a :: text then some 0 else (find tok text).map (· + 1)

def partialFrom (text tok : List α) : Nat → Nat
  | 0 => 0
  | i + 1 => if text.drop (text.length - (i + 1)) <+: tok then i + 1 else partialFrom text tok i

/-- The length of the longest end of the text that is a strict beginning of the token. -/
def partialSuffix (text tok : List α) : Nat :=
  partialFrom text tok (min text.length (tok.length - 1))

/-! ### The first occurrence -/

theorem find_eq_some_iff : find tok text = some i ↔
    i ≤ text.length ∧ tok <+: text.drop i ∧ ∀ j < i, ¬ tok <+: text.drop j := by
  induction text generalizing i with
  | nil =>
    simp only [find, drop_nil, length_nil, prefix_nil]
    split_ifs with h
    · simp only [h, Option.some.injEq, not_true_eq_false, imp_false, not_lt, true_and]
      constructor
      · rintro rfl
        exact ⟨le_rfl, Nat.zero_le⟩
      · rintro ⟨hi, -⟩
        omega
    · simp [h]
  | cons a text ih =>
    rw [find]
    split_ifs with h
    · constructor
      · rintro ⟨⟩
        exact ⟨Nat.zero_le _, h, fun j hj => absurd hj (Nat.not_lt_zero j)⟩
      · rintro ⟨-, -, hno⟩
        rcases Nat.eq_zero_or_pos i with rfl | hi
        · rfl
        · exact absurd h (hno 0 hi)
    · rw [Option.map_eq_some_iff]
      constructor
      · rintro ⟨k, hk, rfl⟩
        obtain ⟨hle, hat, hno⟩ := ih.mp hk
        refine ⟨Nat.succ_le_succ hle, hat, fun j hj => ?_⟩
        rcases j with - | j
        · exact h
        · exact hno j (Nat.lt_of_succ_lt_succ hj)
      · rintro ⟨hle, hat, hno⟩
        rcases i with - | i
        · exact absurd hat h
        · exact ⟨i, ih.mpr ⟨Nat.le_of_succ_le_succ hle, hat, fun j hj =>
            hno (j + 1) (Nat.succ_lt_succ hj)⟩, rfl⟩

theorem find_eq_none_iff : find tok text = none ↔ ¬ tok <:+: text := by
  induction text with
  | nil => simp [find]
  | cons a text ih =>
    rw [find, infix_cons_iff]
    split_ifs with h
    · simp [h]
    · simp [h, ih]

section

variable (h : find tok text = some i)
include h

theorem find_add_length_le : i + tok.length ≤ text.length := by
  obtain ⟨hle, hat, -⟩ := find_eq_some_iff.mp h
  have := hat.length_le
  rw [length_drop] at this
  omega

theorem drop_eq_of_find :
    text.drop i = tok ++ text.drop (i + tok.length) := by
  obtain ⟨rest, hrest⟩ := (find_eq_some_iff.mp h).2.1
  rw [← hrest, ← drop_drop, ← hrest, drop_left]

/-- The text around its first occurrence. -/
theorem eq_of_find :
    text = text.take i ++ tok ++ text.drop (i + tok.length) := by
  rw [append_assoc, ← drop_eq_of_find h, take_append_drop]

end

theorem find_zero_iff : find tok text = some 0 ↔ tok <+: text := by
  simp [find_eq_some_iff]

/-- What follows does not move the first occurrence. -/
theorem find_append_of_some (h : find tok text = some i) (new : List α) :
    find tok (text ++ new) = some i := by
  have hlen := find_add_length_le h
  obtain ⟨hle, hat, hno⟩ := find_eq_some_iff.mp h
  rw [find_eq_some_iff, length_append, drop_append_of_le_length hle]
  refine ⟨by omega, hat.trans (prefix_append _ _), fun j hj hj' => hno j hj ?_⟩
  rw [drop_append_of_le_length (by omega)] at hj'
  exact prefix_of_prefix_length_le hj' (prefix_append _ _) (by rw [length_drop]; omega)

/-- An occurrence that is complete does not depend on what follows. -/
theorem find_of_append (h : find tok (text ++ new) = some i) (hi : i + tok.length ≤ text.length) :
    find tok text = some i := by
  obtain ⟨-, hat, hno⟩ := find_eq_some_iff.mp h
  refine find_eq_some_iff.mpr ⟨by omega, ?_, fun j hj hj' => hno j hj ?_⟩
  · rw [drop_append_of_le_length (by omega)] at hat
    exact prefix_of_prefix_length_le hat (prefix_append _ _) (by rw [length_drop]; omega)
  · rw [drop_append_of_le_length (by omega)]
    exact hj'.trans (prefix_append _ _)

/-- What stands before is skipped when no occurrence begins in it. -/
theorem find_append_of_forall (h : ∀ j < out.length, ¬ tok <+: (out ++ text).drop j) :
    find tok (out ++ text) = (find tok text).map (out.length + ·) := by
  induction out with
  | nil => simp
  | cons a out ih =>
    have h0 : ¬ tok <+: a :: (out ++ text) := h 0 (Nat.zero_lt_succ _)
    have hrest : ∀ j < out.length, ¬ tok <+: (out ++ text).drop j := fun j hj =>
      h (j + 1) (Nat.succ_lt_succ hj)
    rw [cons_append, find, if_neg h0, ih hrest, Option.map_map]
    congr 1
    funext k
    simp only [Function.comp_apply, length_cons]
    omega

omit [DecidableEq α] in
/-- An occurrence that lies within another one. -/
theorem isInfix_of_within {inner : List α} (h : tok <+: text.drop j) (h' : inner <+: text.drop i)
    (hle : j ≤ i) (hlen : i + inner.length ≤ j + tok.length) : inner <:+: tok := by
  obtain ⟨k, rfl⟩ := Nat.exists_eq_add_of_le hle
  rw [← drop_drop] at h'
  have hdrop : tok.drop k <+: (text.drop j).drop k := h.drop k
  have hpre : inner <+: tok.drop k :=
    prefix_of_prefix_length_le h' hdrop (by rw [length_drop]; omega)
  exact hpre.isInfix.trans (drop_suffix k tok).isInfix

/-! ### The longest partial occurrence at the end -/

theorem partialFrom_le (text tok : List α) (n : Nat) : partialFrom text tok n ≤ n := by
  induction n with
  | zero => exact le_rfl
  | succ n ih =>
    rw [partialFrom]
    split_ifs
    · exact le_rfl
    · omega

theorem partialSuffix_le_length (text tok : List α) : partialSuffix text tok ≤ text.length :=
  (partialFrom_le _ _ _).trans (Nat.min_le_left _ _)

theorem partialFrom_starts (text tok : List α) (n : Nat) :
    text.drop (text.length - partialFrom text tok n) <+: tok := by
  induction n with
  | zero => simp [partialFrom]
  | succ n ih =>
    rw [partialFrom]
    split_ifs with h
    · exact h
    · exact ih

theorem le_partialFrom {n : Nat} (hi : i ≤ n) (h : text.drop (text.length - i) <+: tok) :
    i ≤ partialFrom text tok n := by
  induction n with
  | zero => omega
  | succ n ih =>
    rw [partialFrom]
    split_ifs with hn
    · exact hi
    · refine ih (Nat.le_of_lt_succ (lt_of_le_of_ne hi ?_))
      rintro rfl
      exact hn h

/-- The partial occurrence is a beginning of the token, and not the whole of it. -/
theorem partialSuffix_starts (text tok : List α) (h : tok ≠ []) :
    text.drop (text.length - partialSuffix text tok) <+: tok ∧ partialSuffix text tok < tok.length := by
  refine ⟨partialFrom_starts _ _ _, ?_⟩
  have := partialFrom_le text tok (min text.length (tok.length - 1))
  have := length_pos_of_ne_nil h
  rw [partialSuffix]
  omega

theorem le_partialSuffix (hle : i ≤ text.length) (hlt : i < tok.length)
    (h : text.drop (text.length - i) <+: tok) : i ≤ partialSuffix text tok :=
  le_partialFrom (by omega) h

/-! ### Passing on and holding back -/

/-- No occurrence begins in what was passed on, whatever arrives after what is held. -/
def Clear (tok out held : List α) : Prop :=
  ∀ new j, j < out.length → ¬ tok <+: (out ++ held ++ new).drop j

omit [DecidableEq α] in
theorem Clear.nil (tok held : List α) : Clear tok [] held := fun _ _ hj => absurd hj (Nat.not_lt_zero _)

omit [DecidableEq α] in
theorem Clear.append (h : Clear tok out held) (new : List α) : Clear tok out (held ++ new) := by
  intro new' j hj
  rw [← append_assoc, append_assoc _ new]
  exact h (new ++ new') j hj

theorem Clear.find_append (h : Clear tok out held) :
    find tok (out ++ held) = (find tok held).map (out.length + ·) :=
  find_append_of_forall fun j hj => by simpa using h [] j hj

/-- Passing on all but a partial occurrence. -/
theorem Clear.emit {emitted : List α} (h : Clear tok out (emitted ++ held))
    (hno : find tok (emitted ++ held) = none) (hk : partialSuffix (emitted ++ held) tok ≤ held.length) :
    Clear tok (out ++ emitted) held := by
  intro new j hj hat
  rw [append_assoc out] at hat
  rcases Nat.lt_or_ge j out.length with hjo | hjo
  · exact h new j hjo hat
  obtain ⟨k, rfl⟩ := Nat.exists_eq_add_of_le hjo
  rw [append_assoc, drop_length_add_append,
    drop_append_of_le_length (by simp at hj ⊢; omega)] at hat
  rw [length_append] at hj
  set current := emitted ++ held with hcurrent
  have hcl : current.length = emitted.length + held.length := length_append
  rcases Nat.lt_or_ge (current.drop k).length tok.length with hlt | hge
  · -- the occurrence is not complete, so its beginning is what the search holds back
    have hpre := prefix_of_prefix_length_le (prefix_append (current.drop k) new) hat hlt.le
    rw [length_drop] at hlt
    have hk' : current.length - (current.length - k) = k := by omega
    have hle : current.length - k ≤ partialSuffix current tok :=
      le_partialSuffix (Nat.sub_le _ _) hlt (by rwa [hk'])
    omega
  · have hin := prefix_of_prefix_length_le hat (prefix_append _ _) hge
    exact find_eq_none_iff.mp hno (hin.isInfix.trans (drop_suffix k current).isInfix)

end Foundation
