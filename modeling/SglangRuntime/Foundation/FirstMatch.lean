import Mathlib.Data.List.Infix

/-!
# Foundation — the first place a test answers

`firstMatch` looks along a text for the first place at which a test gives an answer.  The test sees
the rest of the text and a context, which is what the symbol just before the place left behind.

`ClearTo n` says that there is no answer before place `n`.  Such a beginning may be cut off
(`firstMatch_append`), and for a test that is never revived by what follows it stays clear
whatever is put behind the text (`ClearTo.append`).
-/

namespace Foundation

open List Option

variable {α β σ : Type*} {after : α → σ} {test : σ → List α → Option β} {s : σ}
  {text out new : List α} {n k : Nat} {b : β} {a : α}

def firstMatch (after : α → σ) (test : σ → List α → Option β) : σ → List α → Option (Nat × β)
  | _, [] => none
  | s, a :: text =>
    match test s (a :: text) with
    | some b => some (0, b)
    | none => (firstMatch after test (after a) text).map (Prod.map (· + 1) id)

/-- The context behind a text. -/
def contextAfter (after : α → σ) (s : σ) (text : List α) : σ := text.foldl (fun _ a => after a) s

/-- No answer before place `n`. -/
def ClearTo (after : α → σ) (test : σ → List α → Option β) (n : Nat) (s : σ) (text : List α) : Prop :=
  ∀ k b, firstMatch after test s text = some (k, b) → n ≤ k

@[simp] theorem contextAfter_nil : contextAfter after s [] = s := rfl

@[simp] theorem contextAfter_cons (a : α) :
    contextAfter after s (a :: text) = contextAfter after (after a) text := rfl

theorem contextAfter_append :
    contextAfter after s (text ++ new) = contextAfter after (contextAfter after s text) new :=
  foldl_append

theorem firstMatch_cons_of_some (h : test s (a :: text) = some b) :
    firstMatch after test s (a :: text) = some (0, b) := by
  rw [firstMatch, h]

theorem firstMatch_cons_of_none (h : test s (a :: text) = none) :
    firstMatch after test s (a :: text) =
      (firstMatch after test (after a) text).map (Prod.map (· + 1) id) := by
  rw [firstMatch, h]

section

variable (h : firstMatch after test s text = some (k, b))
include h

/-- The test answers at the place that is found, which lies within the text. -/
theorem firstMatch_spec :
    k < text.length ∧ test (contextAfter after s (text.take k)) (text.drop k) = some b := by
  induction text generalizing s k with
  | nil => cases h
  | cons a text ih =>
    rcases ht : test s (a :: text) with - | b'
    · rw [firstMatch_cons_of_none ht, map_eq_some_iff] at h
      obtain ⟨⟨j, b'⟩, hj, heq⟩ := h
      cases heq
      exact ⟨Nat.succ_lt_succ (ih hj).1, (ih hj).2⟩
    · rw [firstMatch_cons_of_some ht] at h
      cases h
      exact ⟨Nat.zero_lt_succ _, ht⟩

theorem lt_length_of_firstMatch : k < text.length := (firstMatch_spec h).1

theorem test_of_firstMatch :
    test (contextAfter after s (text.take k)) (text.drop k) = some b := (firstMatch_spec h).2

end

theorem firstMatch_eq_none_iff : firstMatch after test s text = none ↔
    ∀ j < text.length, test (contextAfter after s (text.take j)) (text.drop j) = none := by
  induction text generalizing s with
  | nil => simp [firstMatch]
  | cons a text ih =>
    constructor
    · intro h j hj
      rcases ht : test s (a :: text) with - | b'
      · rw [firstMatch_cons_of_none ht, map_eq_none_iff] at h
        cases j with
        | zero => exact ht
        | succ j => exact ih.mp h j (Nat.lt_of_succ_lt_succ hj)
      · rw [firstMatch_cons_of_some ht] at h
        cases h
    · intro h
      have ht : test s (a :: text) = none := h 0 (Nat.zero_lt_succ _)
      rw [firstMatch_cons_of_none ht, map_eq_none_iff]
      exact ih.mpr fun j hj => h (j + 1) (Nat.succ_lt_succ hj)

theorem ClearTo.mono {m : Nat} (h : ClearTo after test n s text) (hm : m ≤ n) :
    ClearTo after test m s text :=
  fun k b hk => hm.trans (h k b hk)

theorem clearTo_of_firstMatch (h : firstMatch after test s text = some (k, b)) :
    ClearTo after test k s text := by
  intro j b' hj
  rw [h] at hj
  cases hj
  exact le_rfl

theorem clearTo_of_none (h : firstMatch after test s text = none) (n : Nat) :
    ClearTo after test n s text := by
  intro j b' hj
  rw [h] at hj
  cases hj

theorem clearTo_cons_iff : ClearTo after test (n + 1) s (a :: text) ↔
    test s (a :: text) = none ∧ ClearTo after test n (after a) text := by
  rcases ht : test s (a :: text) with - | b'
  · simp only [ClearTo, firstMatch_cons_of_none ht, map_eq_some_iff, true_and]
    constructor
    · intro h k b hk
      exact Nat.le_of_succ_le_succ (h (k + 1) b ⟨(k, b), hk, rfl⟩)
    · rintro h k b ⟨⟨j, b'⟩, hj, heq⟩
      cases heq
      exact Nat.succ_le_succ (h j b' hj)
  · simp only [ClearTo, firstMatch_cons_of_some ht, reduceCtorEq, false_and, iff_false]
    intro h
    exact absurd (h 0 b' rfl) (Nat.not_succ_le_zero n)

/-- A clear beginning is cut off. -/
theorem firstMatch_append (h : ClearTo after test out.length s (out ++ text)) :
    firstMatch after test s (out ++ text) =
      (firstMatch after test (contextAfter after s out) text).map (Prod.map (out.length + ·) id) := by
  induction out generalizing s with
  | nil =>
    simp only [nil_append, length_nil, Nat.zero_add, contextAfter_nil]
    exact map_id'.symm
  | cons a out ih =>
    rw [cons_append, length_cons] at h
    obtain ⟨ht, hrest⟩ := clearTo_cons_iff.mp h
    rw [cons_append, firstMatch_cons_of_none ht, ih hrest, Option.map_map, contextAfter_cons]
    congr 1
    funext ⟨k, b⟩
    simp only [Function.comp_apply, Prod.map_apply, id_eq, length_cons, Prod.mk.injEq, and_true]
    omega

/-- What is put behind the text brings no answer before place `n`. -/
theorem ClearTo.append (hlive : ∀ s w v, w ≠ [] → test s w = none → test s (w ++ v) = none)
    (h : ClearTo after test n s text) (hn : n ≤ text.length) (new : List α) :
    ClearTo after test n s (text ++ new) := by
  induction text generalizing s n with
  | nil =>
    rw [length_nil, Nat.le_zero] at hn
    subst hn
    exact fun k b _ => Nat.zero_le k
  | cons a text ih =>
    cases n with
    | zero => exact fun k b _ => Nat.zero_le k
    | succ n =>
      obtain ⟨ht, hrest⟩ := clearTo_cons_iff.mp h
      exact clearTo_cons_iff.mpr ⟨hlive s (a :: text) new (cons_ne_nil a text) ht,
        ih hrest (Nat.le_of_succ_le_succ hn)⟩

/-- Behind a clear beginning the answer is the same, that much nearer. -/
theorem firstMatch_drop (h : ClearTo after test n s text) (hn : n ≤ text.length) :
    firstMatch after test s text =
      (firstMatch after test (contextAfter after s (text.take n)) (text.drop n)).map
        (Prod.map (n + ·) id) := by
  have hlen : (text.take n).length = n := length_take_of_le hn
  have h' : ClearTo after test (text.take n).length s (text.take n ++ text.drop n) := by
    rwa [hlen, take_append_drop]
  simpa only [take_append_drop, hlen] using firstMatch_append h'

end Foundation
