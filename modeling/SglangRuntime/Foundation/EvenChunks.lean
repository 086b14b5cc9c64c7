import Mathlib.Data.Nat.Basic
import Mathlib.Tactic.Ring
import Mathlib.Tactic.Linarith

/-!
# Foundation — cutting a list into even chunks

`n` elements cut into `k` chunks in order, the first `n % k` of them longer by one.  `chunkIndex` is
the chunk of an element and `chunkStart` the first element of a chunk; the two are inverse to each
other (`chunkIndex_eq_iff`).
-/

namespace Foundation

/-- The chunk that the `i`-th element is in. -/
def chunkIndex (n k i : Nat) : Nat :=
  let forLongChunks := n % k * (n / k + 1)
  if i < forLongChunks then i / (n / k + 1) else n % k + (i - forLongChunks) / (n / k)

/-- The first element of the `c`-th chunk. -/
def chunkStart (n k c : Nat) : Nat := c * (n / k) + min c (n % k)

/-- The length of the `c`-th chunk. -/
def chunkSize (n k c : Nat) : Nat := n / k + if c < n % k then 1 else 0

variable {n k i c : Nat}

theorem chunkStart_of_le (h : c ≤ n % k) : chunkStart n k c = c * (n / k + 1) := by
  rw [chunkStart, min_eq_left h]
  ring

theorem chunkStart_of_ge (h : n % k ≤ c) :
    chunkStart n k c = n % k * (n / k + 1) + (c - n % k) * (n / k) := by
  obtain ⟨d, rfl⟩ := Nat.exists_eq_add_of_le h
  rw [chunkStart, min_eq_right h, Nat.add_sub_cancel_left]
  ring

theorem div_eq_iff_between {a b : Nat} (hb : 0 < b) : a / b = c ↔ c * b ≤ a ∧ a < (c + 1) * b := by
  rw [← Nat.le_div_iff_mul_le hb, ← Nat.div_lt_iff_lt_mul hb]
  omega

/-- An element is in the chunk between whose ends it lies. -/
theorem chunkIndex_eq_iff (hi : i < n) :
    chunkIndex n k i = c ↔ chunkStart n k c ≤ i ∧ i < chunkStart n k c + chunkSize n k c := by
  have hdiv : n / k * k + n % k = n := Nat.div_add_mod' n k
  rw [chunkIndex]
  rcases Nat.lt_or_ge c (n % k) with hc | hc
  · have hle : (c + 1) * (n / k + 1) ≤ n % k * (n / k + 1) := Nat.mul_le_mul_right _ hc
    have hend : chunkStart n k c + chunkSize n k c = (c + 1) * (n / k + 1) := by
      rw [chunkStart_of_le hc.le, chunkSize, if_pos hc]
      ring
    rw [hend, chunkStart_of_le hc.le]
    split_ifs with h
    · exact div_eq_iff_between (Nat.succ_pos _)
    · refine iff_of_false (fun h' => ?_) fun h' => h (h'.2.trans_le hle)
      exact absurd (h' ▸ hc) (Nat.not_lt.mpr (Nat.le_add_right _ _))
  · have hend : chunkStart n k c + chunkSize n k c =
        n % k * (n / k + 1) + (c - n % k + 1) * (n / k) := by
      rw [chunkStart_of_ge hc, chunkSize, if_neg (Nat.not_lt.mpr hc)]
      ring
    rw [hend, chunkStart_of_ge hc]
    generalize hl : n % k * (n / k + 1) = long at *
    split_ifs with h
    · have hlt : i / (n / k + 1) < n % k := (Nat.div_lt_iff_lt_mul (Nat.succ_pos _)).mpr (hl ▸ h)
      refine iff_of_false (fun h' => ?_) fun h' => ?_
      · omega
      · exact absurd (h.trans_le ((Nat.le_add_right _ _).trans h'.1)) (lt_irrefl _)
    have hpos : 0 < n / k := by
      rcases Nat.eq_zero_or_pos (n / k) with hz | hz
      · rw [hz] at hl hdiv
        omega
      · exact hz
    have hcong : n % k + (i - long) / (n / k) = c ↔ (i - long) / (n / k) = c - n % k := by omega
    rw [hcong, div_eq_iff_between hpos]
    generalize (c - n % k) * (n / k) = a
    generalize (c - n % k + 1) * (n / k) = b
    omega

/-- Every element is in one of the chunks. -/
theorem chunkIndex_lt (hk : 0 < k) (hi : i < n) : chunkIndex n k i < k := by
  by_contra hge
  have hmod := Nat.mod_lt n hk
  have hdiv : k * (n / k) + n % k = n := Nat.div_add_mod n k
  obtain ⟨hle, -⟩ := (chunkIndex_eq_iff (c := chunkIndex n k i) (k := k) hi).mp rfl
  have hstart : chunkStart n k k ≤ chunkStart n k (chunkIndex n k i) := by
    rw [chunkStart, chunkStart]
    have := Nat.mul_le_mul_right (n / k) (Nat.le_of_not_lt hge)
    omega
  rw [chunkStart, min_eq_right hmod.le] at hstart
  omega

end Foundation
