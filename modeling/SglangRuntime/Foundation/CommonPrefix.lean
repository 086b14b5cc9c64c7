import Mathlib.Data.List.Basic
import Mathlib.Tactic

/-!
# Foundation — the common prefix of two lists, and searching for where they part

`commonPrefix` counts the leading entries two lists share.  `gallop` finds the same number by
comparing slices only: windows that double in length until one of them differs, then a bisection
of that window.  `gallop_eq` says that the two agree, for every pair of lists.
-/

namespace Foundation

open List

/-- `l[lo:hi]`. -/
def slice {α : Type} (l : List α) (lo hi : Nat) : List α := (l.take hi).drop lo

variable {α : Type} {lo hi n : Nat}

theorem slice_take (l : List α) (h : hi ≤ n) : slice (l.take n) lo hi = slice l lo hi := by
  rw [slice, slice, take_take, min_eq_left h]

theorem slice_drop (l : List α) (lo hi n : Nat) :
    slice (l.drop n) lo hi = slice l (lo + n) (hi + n) := by
  rw [slice, slice, take_drop, drop_drop, Nat.add_comm n hi, Nat.add_comm lo n]

theorem slice_append_left (l l' : List α) (h : hi ≤ l.length) :
    slice (l ++ l') lo hi = slice l lo hi := by
  rw [slice, slice, take_append_of_le_length h]

theorem slice_append_right (l l' : List α) (h : l.length ≤ lo) :
    slice (l ++ l') lo hi = slice l' (lo - l.length) (hi - l.length) := by
  have front : (l.take hi).length ≤ lo := by
    rw [length_take]; exact (min_le_right _ _).trans h
  rw [slice, slice, take_append, drop_append, drop_eq_nil_of_le front,
    nil_append]
  rcases le_total l.length hi with hl | hl
  · rw [length_take, min_eq_right hl]
  · rw [Nat.sub_eq_zero_of_le hl]; simp

variable {α : Type} [DecidableEq α]

/-- The number of leading entries `s` and `t` share. -/
def commonPrefix : List α → List α → Nat
  | a :: s, b :: t => if a = b then commonPrefix s t + 1 else 0
  | _, _ => 0

theorem commonPrefix_le (s t : List α) : commonPrefix s t ≤ min s.length t.length := by
  induction s generalizing t with
  | nil => simp [commonPrefix]
  | cons a s ih =>
    cases t with
    | nil => simp [commonPrefix]
    | cons b t =>
      rw [commonPrefix, length_cons, length_cons, Nat.succ_min_succ]
      split
      · exact Nat.succ_le_succ (ih t)
      · exact Nat.zero_le _

theorem commonPrefix_le_left (s t : List α) : commonPrefix s t ≤ s.length :=
  (commonPrefix_le s t).trans (min_le_left _ _)

theorem commonPrefix_le_right (s t : List α) : commonPrefix s t ≤ t.length :=
  (commonPrefix_le s t).trans (min_le_right _ _)

/-- Two lists agree on their first `n` entries exactly when `n` is at most their common prefix. -/
theorem take_eq_take_iff_le_commonPrefix {s t : List α} (hs : n ≤ s.length)
    (ht : n ≤ t.length) : s.take n = t.take n ↔ n ≤ commonPrefix s t := by
  induction n generalizing s t with
  | zero => simp
  | succ n ih =>
    cases s with
    | nil => simp at hs
    | cons a s =>
      cases t with
      | nil => simp at ht
      | cons b t =>
        have hs' : n ≤ s.length := by simpa using hs
        have ht' : n ≤ t.length := by simpa using ht
        by_cases e : a = b
        · simp [commonPrefix, e, ih hs' ht']
        · simp [commonPrefix, e]

theorem commonPrefix_map {β : Type} [DecidableEq β] {f : α → β} (hf : Function.Injective f)
    (s t : List α) : commonPrefix (s.map f) (t.map f) = commonPrefix s t := by
  induction s generalizing t with
  | nil => simp [commonPrefix]
  | cons a s ih =>
    cases t with
    | nil => simp [commonPrefix]
    | cons b t => simp [commonPrefix, hf.eq_iff, ih]

theorem commonPrefix_take (s t : List α) (m n : Nat) :
    commonPrefix (s.take m) (t.take n) = min (commonPrefix s t) (min m n) := by
  induction s generalizing t m n with
  | nil => simp [commonPrefix]
  | cons a s ih =>
    cases t with
    | nil => simp [commonPrefix]
    | cons b t =>
      rcases m with - | m
      · simp [commonPrefix]
      rcases n with - | n
      · simp [commonPrefix]
      by_cases e : a = b
      · simp [commonPrefix, e, ih]
      · simp [commonPrefix, e]

theorem commonPrefix_drop {s t : List α} (h : n ≤ commonPrefix s t) :
    commonPrefix (s.drop n) (t.drop n) = commonPrefix s t - n := by
  induction n generalizing s t with
  | zero => rfl
  | succ n ih =>
    match s, t with
    | [], _ | _ :: _, [] => simp [commonPrefix] at h
    | a :: s, b :: t =>
      by_cases e : a = b
      · simp only [commonPrefix, e, if_true, Nat.succ_le_succ_iff, drop_succ_cons] at h ⊢
        rw [ih h]
        omega
      · simp [commonPrefix, e] at h

/-! ### Galloping -/

/-- The bisection of the window `[lo, hi)`, in which the lists are known to part. -/
def bisect (s t : List α) : Nat → Nat → Nat → Nat
  | 0, lo, _ => lo
  | fuel + 1, lo, hi =>
    if hi - lo > 1 then
      let mid := (lo + hi) / 2
      if slice s lo mid = slice t lo mid then bisect s t fuel mid hi
      else bisect s t fuel lo mid
    else lo

/-- Doubling windows from `lo`, until one differs or the shorter list is used up. -/
def gallopFrom (s t : List α) (n : Nat) : Nat → Nat → Nat → Nat
  | 0, _, _ => n
  | fuel + 1, lo, step =>
    if lo < n then
      let hi := if lo + step < n then lo + step else n
      if slice s lo hi ≠ slice t lo hi then bisect s t (hi - lo) lo hi
      else gallopFrom s t n fuel hi (step * 2)
    else n

def gallop (s t : List α) : Nat :=
  let n := min s.length t.length
  gallopFrom s t n n 0 1

theorem slice_eq_slice_iff {s t : List α} (hlo : lo ≤ commonPrefix s t)
    (hle : lo ≤ hi) (hs : hi ≤ s.length) (ht : hi ≤ t.length) :
    slice s lo hi = slice t lo hi ↔ hi ≤ commonPrefix s t := by
  rw [← take_eq_take_iff_le_commonPrefix hs ht]
  have front : s.take lo = t.take lo :=
    (take_eq_take_iff_le_commonPrefix (hle.trans hs) (hle.trans ht)).mpr hlo
  have cut : ∀ l : List α, l.take hi = l.take lo ++ slice l lo hi := fun l => by
    conv_lhs => rw [← take_append_drop lo (l.take hi), take_take, min_eq_left hle]
    rfl
  rw [cut s, cut t, front, append_cancel_left_eq]

theorem bisect_eq {s t : List α} {fuel : Nat} (hlo : lo ≤ commonPrefix s t)
    (hhi : commonPrefix s t < hi) (hs : hi ≤ s.length) (ht : hi ≤ t.length)
    (hf : hi - lo ≤ fuel) : bisect s t fuel lo hi = commonPrefix s t := by
  induction fuel generalizing lo hi with
  | zero => omega
  | succ fuel ih =>
    unfold bisect
    by_cases hw : hi - lo > 1
    · rw [if_pos hw]
      have hmid : slice s lo ((lo + hi) / 2) = slice t lo ((lo + hi) / 2) ↔
          (lo + hi) / 2 ≤ commonPrefix s t :=
        slice_eq_slice_iff hlo (by omega) (by omega) (by omega)
      by_cases hm : (lo + hi) / 2 ≤ commonPrefix s t
      · simp only [hmid, hm, if_true]
        exact ih hm hhi hs ht (by omega)
      · simp only [hmid, hm, if_false]
        exact ih hlo (by omega) (by omega) (by omega) (by omega)
    · rw [if_neg hw]
      omega

theorem gallopFrom_eq {s t : List α} {fuel step : Nat} (hlo : lo ≤ commonPrefix s t)
    (hstep : 0 < step) (hf : min s.length t.length - lo ≤ fuel) :
    gallopFrom s t (min s.length t.length) fuel lo step = commonPrefix s t := by
  have hle := commonPrefix_le s t
  induction fuel generalizing lo step with
  | zero => unfold gallopFrom; omega
  | succ fuel ih =>
    unfold gallopFrom
    by_cases hn : lo < min s.length t.length
    · simp only [hn, if_true]
      -- the window's upper end, cut at the shorter list
      generalize hhi : (if lo + step < min s.length t.length then lo + step
        else min s.length t.length) = hi
      have hbound : lo < hi ∧ hi ≤ min s.length t.length := by split_ifs at hhi <;> omega
      have hmid : slice s lo hi = slice t lo hi ↔ hi ≤ commonPrefix s t :=
        slice_eq_slice_iff hlo (by omega) (by omega) (by omega)
      by_cases hm : hi ≤ commonPrefix s t
      · rw [if_neg (by simpa using hmid.mpr hm)]
        exact ih hm (by omega) (by omega)
      · rw [if_pos (fun e => hm (hmid.mp e))]
        exact bisect_eq hlo (by omega) (by omega) (by omega) le_rfl
    · rw [if_neg hn]
      omega

/-- **Galloping finds the common prefix.** -/
theorem gallop_eq (s t : List α) : gallop s t = commonPrefix s t :=
  gallopFrom_eq (Nat.zero_le _) Nat.one_pos (by omega)

end Foundation
