import Mathlib.Data.Rat.Floor
import Mathlib.Tactic.Linarith

/-!
# Foundation — rounded arithmetic

A number format that contains the integers: every exact result is rounded by a monotone function
that fixes them.  Binary floating point is such a format as long as the integers involved are
exactly representable, and exact arithmetic is one.  Comparisons of a rounded result with an
integer are then those of the exact result, in the direction that matters to a bound.

`roundUp p t` is the other rounding, of an integer to the next multiple of `p`.
-/

namespace Foundation

structure Rounding where
  round : ℚ → ℚ
  mono : Monotone round
  round_intCast : ∀ n : ℤ, round n = n

/-- `int(x)`: towards zero. -/
def truncate (x : ℚ) : ℤ := if 0 ≤ x then ⌊x⌋ else ⌈x⌉

theorem truncate_le {x : ℚ} {n : ℤ} (h : x ≤ n) : truncate x ≤ n := by
  rw [truncate]
  split_ifs
  · exact Int.cast_le.mp ((Int.floor_le x).trans h)
  · exact Int.ceil_le.mpr h

namespace Rounding

/-- Exact arithmetic. -/
def exact : Rounding := ⟨id, monotone_id, fun _ => rfl⟩

variable (r : Rounding) {x : ℚ} {n : ℤ}

theorem round_le (h : x ≤ n) : r.round x ≤ n :=
  (r.mono h).trans_eq (r.round_intCast n)

theorem le_round (h : n ≤ x) : (n : ℚ) ≤ r.round x :=
  (r.round_intCast n).symm.trans_le (r.mono h)

theorem round_nonneg (h : 0 ≤ x) : 0 ≤ r.round x := by
  have h' : ((0 : ℤ) : ℚ) ≤ r.round x := r.le_round (by simpa using h)
  simpa using h'

/-- A running sum, rounded after each addition. -/
def sum (l : List ℚ) : ℚ := l.foldl (fun x y => r.round (x + y)) 0

theorem sum_nonneg {l : List ℚ} (h : ∀ x ∈ l, 0 ≤ x) : 0 ≤ r.sum l := by
  suffices ∀ (acc : ℚ), 0 ≤ acc → 0 ≤ l.foldl (fun x y => r.round (x + y)) acc from this 0 le_rfl
  induction l with
  | nil => exact fun acc hacc => hacc
  | cons x l ih =>
    intro acc hacc
    refine ih (fun y hy => h y (List.mem_cons_of_mem x hy)) _ (r.round_nonneg ?_)
    exact add_nonneg hacc (h x List.mem_cons_self)

end Rounding

/-! ### Multiples -/

/-- The least multiple of `p` that is not below `t`. -/
def roundUp (p : ℕ) (t : ℤ) : ℤ := -(-t / p) * p

section RoundUp

variable {p : ℕ} (hp : 0 < p) {t u : ℤ}

theorem dvd_roundUp (p : ℕ) (t : ℤ) : (p : ℤ) ∣ roundUp p t := dvd_mul_left _ _

include hp in
theorem le_roundUp (t : ℤ) : t ≤ roundUp p t := by
  have h := Int.ediv_mul_le (-t) (Int.natCast_ne_zero.mpr hp.ne')
  rw [roundUp]
  linarith

include hp in
theorem roundUp_lt (t : ℤ) : roundUp p t < t + p := by
  have h := Int.lt_ediv_add_one_mul_self (-t) (Int.natCast_pos.mpr hp)
  rw [roundUp]
  linarith

include hp in
/-- A multiple that is not below `t` is not below `roundUp p t`. -/
theorem roundUp_le (h : t ≤ u) (hu : (p : ℤ) ∣ u) : roundUp p t ≤ u := by
  obtain ⟨k, rfl⟩ := hu
  have hk : -k ≤ -t / p :=
    (Int.le_ediv_iff_mul_le (Int.natCast_pos.mpr hp)).mpr (by linarith [mul_comm (p : ℤ) k])
  rw [roundUp, mul_comm (p : ℤ) k]
  exact mul_le_mul_of_nonneg_right (by linarith) (Int.natCast_nonneg p)

include hp in
theorem roundUp_mono (h : t ≤ u) : roundUp p t ≤ roundUp p u :=
  roundUp_le hp (h.trans (le_roundUp hp u)) (dvd_roundUp p u)

include hp in
theorem roundUp_of_dvd (h : (p : ℤ) ∣ t) : roundUp p t = t :=
  le_antisymm (roundUp_le hp le_rfl h) (le_roundUp hp t)

include hp in
/-- The multiples passed when `u` is added to `t`, both counted from below. -/
theorem sub_div_mul_le_roundUp (t u : ℤ) :
    ((t + u + p - 1) / p - (t + p - 1) / p) * p ≤ roundUp p u := by
  have hp0 : (0 : ℤ) < p := Int.natCast_pos.mpr hp
  have hle : t + u + p - 1 ≤ t + p - 1 + -(-u / p) * p := by
    have := le_roundUp hp u
    rw [roundUp] at this
    linarith
  have h := Int.ediv_le_ediv hp0 hle
  rw [Int.add_mul_ediv_right _ _ hp0.ne'] at h
  exact mul_le_mul_of_nonneg_right (by linarith) hp0.le

end RoundUp

end Foundation
