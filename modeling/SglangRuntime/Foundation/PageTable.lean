import SglangRuntime.Foundation.PageList
import Mathlib.Logic.Function.Basic
import Mathlib.Data.List.Nodup

/-!
# Foundation — tables between slots, read page by page

A table gives each slot a slot of another space, or zero.  It is *paged* if it can be described by two
functions on pages: how many of a page's first slots have an entry, and the page that they are mapped to,
place by place (`TableView`, `Represents`).  Writing the slots of a row of pages extends the description
by these pages (`Represents.write`); clearing whole pages takes them out (`Represents.wipe`).  What is
mapped to is then known by pages (`Owns`).
-/

namespace Foundation

open Function Option Int

variable {n : Nat} {m : Int → Int} {xs ys pages pages' : List Int} {lo hi : Nat} {x y : Int}
  {i j k : Nat}

/-- Write `ys` at `xs`. -/
def writeAll (m : Int → Int) (xs ys : List Int) : Int → Int :=
  (xs.zip ys).foldl (fun m x => update m x.1 x.2) m

def clearAll (m : Int → Int) (xs : List Int) : Int → Int :=
  fun x => if x ∈ xs then 0 else m x

theorem writeAll_of_notMem (hx : x ∉ xs) : writeAll m xs ys x = m x := by
  induction xs generalizing m ys with
  | nil => rfl
  | cons x' xs ih =>
    cases ys with
    | nil => rfl
    | cons y' ys =>
      rw [List.mem_cons, not_or] at hx
      have hstep : writeAll m (x' :: xs) (y' :: ys) x =
          writeAll (update m x' y') xs ys x := rfl
      rw [hstep, ih hx.2, update_of_ne hx.1]

theorem writeAll_getElem? (hnd : xs.Nodup) (hx : xs[i]? = some x) (hy : ys[i]? = some y) :
    writeAll m xs ys x = y := by
  induction xs generalizing m ys i with
  | nil => simp at hx
  | cons x' xs ih =>
    cases ys with
    | nil => simp at hy
    | cons y' ys =>
      have hstep : writeAll m (x' :: xs) (y' :: ys) x =
          writeAll (update m x' y') xs ys x := rfl
      rw [List.nodup_cons] at hnd
      rw [hstep]
      cases i with
      | zero =>
        simp only [List.getElem?_cons_zero, some.injEq] at hx hy
        subst hx hy
        rw [writeAll_of_notMem hnd.1, update_self]
      | succ i => exact ih hnd.2 (by simpa using hx) (by simpa using hy)

theorem writeAll_append {xs' ys' : List Int} (hlen : xs.length = ys.length) :
    writeAll m (xs ++ xs') (ys ++ ys') = writeAll (writeAll m xs ys) xs' ys' := by
  rw [writeAll, List.zip_append hlen, List.foldl_append]
  rfl

/-- Writing and clearing at different places can be exchanged. -/
theorem clearAll_writeAll {zs : List Int} (h : ∀ x ∈ xs, x ∉ zs) :
    clearAll (writeAll m xs ys) zs = writeAll (clearAll m zs) xs ys := by
  induction xs generalizing m ys with
  | nil => rfl
  | cons x xs ih =>
    cases ys with
    | nil => rfl
    | cons y ys =>
      have hx := h x List.mem_cons_self
      have hstep : clearAll (update m x y) zs = update (clearAll m zs) x y := by
        funext z
        by_cases hz : z = x
        · subst hz
          simp [clearAll, hx]
        · simp [clearAll, update_of_ne hz]
      have hrest : clearAll (writeAll (update m x y) xs ys) zs = _ :=
        ih fun x' hx' => h x' (List.mem_cons_of_mem _ hx')
      rw [hstep] at hrest
      exact hrest

/-! ### The slots of a row -/

/-- The slots at the places `lo, …, hi - 1` of a row of pages. -/
def rowSlots (n : Nat) (pages : List Int) (lo hi : Nat) : List Int :=
  (List.range' lo (hi - lo)).map fun k => pages.getD (k / n) 0 * n + ((k % n : Nat) : Int)

@[simp] theorem length_rowSlots : (rowSlots n pages lo hi).length = hi - lo := by
  simp [rowSlots]

theorem getElem?_rowSlots (pages : List Int) (hi' : lo + i < hi) : (rowSlots n pages lo hi)[i]? =
    some (pages.getD ((lo + i) / n) 0 * n + (((lo + i) % n : Nat) : Int)) := by
  have hlt : i < hi - lo := by omega
  rw [rowSlots, List.getElem?_map, List.getElem?_range' hlt]
  simp

theorem mem_rowSlots : x ∈ rowSlots n pages lo hi ↔ ∃ k, lo ≤ k ∧ k < hi ∧
    x = pages.getD (k / n) 0 * n + ((k % n : Nat) : Int) := by
  simp only [rowSlots, List.mem_map, List.mem_range'_1]
  constructor
  · rintro ⟨k, ⟨h₁, h₂⟩, rfl⟩
    exact ⟨k, h₁, by omega, rfl⟩
  · rintro ⟨k, h₁, h₂, rfl⟩
    exact ⟨k, ⟨h₁, by omega⟩, rfl⟩

/-- A list that covers pages is the row of these pages. -/
theorem Covers.drop_eq_rowSlots {l : List Int} (h : Covers n l pages) (lo : Nat) :
    l.drop lo = rowSlots n pages lo l.length := by
  refine List.ext_getElem? fun i => ?_
  rw [List.getElem?_drop]
  by_cases hi : lo + i < l.length
  · obtain ⟨x, hx⟩ : ∃ x, l[lo + i]? = some x := ⟨_, List.getElem?_eq_getElem hi⟩
    obtain ⟨hp, hm⟩ := h.slot _ x hx
    rw [getElem?_rowSlots pages hi, hx, List.getD_eq_getElem?_getD, hp, getD_some, ← hm,
      mul_comm, mul_ediv_add_emod]
  · rw [List.getElem?_eq_none (by omega), List.getElem?_eq_none (by rw [length_rowSlots]; omega)]

/-- The page and the place of a slot of a row. -/
theorem rowSlots_div_mod (hn : 0 < n) (pages : List Int) (k : Nat) :
    (pages.getD (k / n) 0 * n + ((k % n : Nat) : Int)) / n = pages.getD (k / n) 0 ∧
      (pages.getD (k / n) 0 * n + ((k % n : Nat) : Int)) % n = ((k % n : Nat) : Int) :=
  slot_div_mod _ (Nat.mod_lt k hn)

theorem getD_inj (hnd : pages.Nodup) (hi : i < pages.length) (hj : j < pages.length)
    (h : pages.getD i 0 = pages.getD j 0) : i = j := by
  simp only [List.getD_eq_getElem?_getD, List.getElem?_eq_getElem hi, List.getElem?_eq_getElem hj,
    getD_some] at h
  exact (hnd.getElem_inj_iff).mp h

theorem nodup_rowSlots (hn : 0 < n) (hnd : pages.Nodup) (hlen : numPagesOf n hi ≤ pages.length) :
    (rowSlots n pages lo hi).Nodup := by
  have hnd' : (List.range' lo (hi - lo)).Nodup := List.nodup_range'
  refine hnd'.map_on fun i hi' j hj' e => ?_
  rw [List.mem_range'_1] at hi' hj'
  obtain ⟨hd, hm⟩ := rowSlots_div_mod hn pages i
  obtain ⟨hd', hm'⟩ := rowSlots_div_mod hn pages j
  rw [e, hd'] at hd
  rw [e, hm'] at hm
  have h₁ := getD_inj hnd ((div_lt_numPagesOf hn (show i < hi by omega)).trans_le hlen)
    ((div_lt_numPagesOf hn (show j < hi by omega)).trans_le hlen) hd.symm
  have h₂ : j % n = i % n := by exact_mod_cast hm
  rw [← Nat.div_add_mod i n, ← Nat.div_add_mod j n, h₁, h₂]

theorem rowSlots_succ (hle : lo ≤ hi) : rowSlots n pages lo (hi + 1) =
    rowSlots n pages lo hi ++ [pages.getD (hi / n) 0 * n + ((hi % n : Nat) : Int)] := by
  have hlen : hi + 1 - lo = hi - lo + 1 := by omega
  have hend : lo + (hi - lo) = hi := by omega
  rw [rowSlots, hlen, List.range'_1_concat, List.map_append, hend]
  rfl

theorem drop_rowSlots (k : Nat) : (rowSlots n pages lo hi).drop k = rowSlots n pages (lo + k) hi := by
  have hlen : hi - lo - k = hi - (lo + k) := by omega
  rw [rowSlots, ← List.map_drop, List.drop_range', Nat.mul_one, hlen]
  rfl

theorem take_rowSlots (hk : lo + k ≤ hi) :
    (rowSlots n pages lo hi).take k = rowSlots n pages lo (lo + k) := by
  obtain ⟨d, hd⟩ := Nat.exists_eq_add_of_le hk
  have hlen : hi - lo = k + d := by omega
  rw [rowSlots, rowSlots, hlen, Nat.add_sub_cancel_left, ← List.range'_append_1, List.map_append]
  exact List.take_left' (by simp)

/-- The row without its first `k` pages. -/
theorem rowSlots_drop (hn : 0 < n) :
    rowSlots n (pages.drop k) lo hi = rowSlots n pages (k * n + lo) (k * n + hi) := by
  have hlen : k * n + hi - (k * n + lo) = hi - lo := by omega
  rw [rowSlots, rowSlots, hlen, ← List.map_add_range', List.map_map]
  refine List.map_congr_left fun i _ => ?_
  rw [comp_apply, Nat.add_comm (k * n) i, Nat.add_mul_div_right _ _ hn,
    Nat.add_mul_mod_self_right, List.getD_eq_getElem?_getD, List.getD_eq_getElem?_getD,
    List.getElem?_drop, Nat.add_comm k]

/-- The places of a row that are in its page `j`. -/
theorem countP_rowSlots (hn : 0 < n) (hnd : pages.Nodup) (hj : j < pages.length)
    (hlen : numPagesOf n hi ≤ pages.length) (hle : lo ≤ hi) :
    (rowSlots n pages lo hi).countP (fun x => x / n == pages[j]) + min n (lo - j * n) =
      min n (hi - j * n) := by
  obtain ⟨k, rfl⟩ := Nat.exists_eq_add_of_le hle
  induction k with
  | zero => simp [rowSlots]
  | succ k ih =>
    have hstep := ih ((numPagesOf_mono (by omega)).trans hlen) (Nat.le_add_right _ _)
    have hlt : (lo + k) / n < pages.length :=
      (div_lt_numPagesOf hn (show lo + k < lo + (k + 1) by omega)).trans_le hlen
    have hdm := Nat.div_add_mod' (lo + k) n
    have hmod := Nat.mod_lt (lo + k) hn
    rw [← Nat.add_assoc, rowSlots_succ (Nat.le_add_right _ _), List.countP_append,
      List.countP_singleton, (rowSlots_div_mod hn pages (lo + k)).1]
    have hpage : (pages.getD ((lo + k) / n) 0 == pages[j]) = decide ((lo + k) / n = j) := by
      rw [List.getD_eq_getElem?_getD, List.getElem?_eq_getElem hlt, getD_some, beq_eq_decide]
      exact decide_eq_decide.mpr hnd.getElem_inj_iff
    rw [hpage]
    by_cases hc : (lo + k) / n = j
    · subst hc
      simp only [decide_true, if_true]
      omega
    -- another page: its places are not counted
    simp only [hc, decide_false, Bool.false_eq_true, if_false]
    rcases Nat.lt_or_gt_of_ne hc with hc | hc
    · have h₁ := Nat.mul_le_mul_right n (Nat.succ_le_of_lt hc)
      rw [Nat.succ_mul] at h₁
      omega
    · have h₁ := Nat.mul_le_mul_right n (Nat.succ_le_of_lt hc)
      rw [Nat.succ_mul] at h₁
      omega

theorem countP_rowSlots_of_notMem (hn : 0 < n) {p : Int} (hp : p ∉ pages)
    (hlen : numPagesOf n hi ≤ pages.length) :
    (rowSlots n pages lo hi).countP (fun x => x / n == p) = 0 := by
  refine List.countP_eq_zero.mpr fun x hx => ?_
  obtain ⟨k, -, hk, rfl⟩ := mem_rowSlots.mp hx
  have hlt := (div_lt_numPagesOf hn hk).trans_le hlen
  rw [(rowSlots_div_mod hn pages k).1, List.getD_eq_getElem?_getD, List.getElem?_eq_getElem hlt,
    getD_some, beq_iff_eq]
  rintro rfl
  exact hp (List.getElem_mem hlt)

/-- The slots of whole pages. -/
theorem flatMap_eq_rowSlots (hn : 0 < n) (pages : List Int) :
    (pages.flatMap fun p => (List.range n).map fun o : Nat => p * n + (o : Int)) =
      rowSlots n pages 0 (pages.length * n) := by
  have hcov : Covers n (pages.flatMap fun p => (List.range n).map fun o : Nat => p * n + (o : Int))
      pages := by
    induction pages with
    | nil => exact Covers.nil hn
    | cons p pages ih =>
      have hone : Covers n ((List.range n).map fun o : Nat => p * n + (o : Int)) [p] := by
        refine ⟨?_, fun i x hx => ?_⟩
        · have := numPagesOf_mul hn 1
          rw [Nat.one_mul] at this
          simp [this]
        · obtain ⟨hin, rfl⟩ := getElem?_map_range.mp hx
          rw [Nat.div_eq_of_lt hin, Nat.mod_eq_of_lt hin, (slot_div_mod p hin).1,
            (slot_div_mod p hin).2]
          exact ⟨rfl, rfl⟩
      exact hone.append hn ih (by simp)
  have hlen : (pages.flatMap fun p => (List.range n).map fun o : Nat => p * n + (o : Int)).length =
      pages.length * n := by
    simp [List.length_flatMap]
  have := hcov.drop_eq_rowSlots 0
  rwa [List.drop_zero, hlen] at this

/-! ### Tables by pages -/

/-- How many of the first slots of a page have an entry, and the page of the entries. -/
structure TableView where
  mapped : Int → Nat
  target : Int → Int

def Represents (n : Nat) (m : Int → Int) (V : TableView) : Prop :=
  ∀ x, 0 ≤ x → m x = if x % n < (V.mapped (x / n) : Int) then V.target (x / n) * n + x % n else 0

namespace TableView

variable (V : TableView)

/-- Page `q` is mapped to. -/
def Owns (q : Int) : Prop := ∃ p, 0 < V.mapped p ∧ V.target p = q

/-- The pages of a row get entries up to place `hi`. -/
def put (n : Nat) (pages pages' : List Int) (hi : Nat) : TableView where
  mapped p := if p ∈ pages then min n (hi - pages.idxOf p * n) else V.mapped p
  target p := if p ∈ pages then pages'.getD (pages.idxOf p) 0 else V.target p

def wipe (d : Int → Prop) [DecidablePred d] : TableView where
  mapped p := if d p then 0 else V.mapped p
  target := V.target

end TableView

variable {V : TableView} {p q : Int}

/-- The row so far: its places below `lo` have their entries, in the pages `pages'`. -/
def RowView (n : Nat) (V : TableView) (pages pages' : List Int) (lo : Nat) : Prop :=
  ∀ j (hj : j < pages.length), V.mapped pages[j] = min n (lo - j * n) ∧
    (j * n < lo → V.target pages[j] = pages'.getD j 0)

section

variable (h : Represents n m V)
include h

theorem Represents.of_mapped (hn : 0 < n) (hx : 0 ≤ x) (h0 : m x ≠ 0) :
    x % n < (V.mapped (x / n) : Int) ∧ m x = V.target (x / n) * n + x % n ∧
      m x / n = V.target (x / n) ∧ m x % n = x % n := by
  have hrep := h x hx
  split_ifs at hrep with hlt
  · have hps : (n : Int) ≠ 0 := by omega
    have hnn := emod_nonneg x hps
    have hlt' := emod_lt_of_pos x (show (0 : Int) < n by omega)
    obtain ⟨o, ho⟩ := eq_ofNat_of_zero_le hnn
    have hdm := slot_div_mod (n := n) (V.target (x / n)) (o := o) (by omega)
    rw [← ho, ← hrep] at hdm
    exact ⟨hlt, hrep, hdm.1, hdm.2⟩
  · exact absurd hrep h0

/-- **Writing a row** whose pages have their entries up to `lo`. -/
theorem Represents.write (hn : 0 < n) (hnd : pages.Nodup)
    (hlen : pages.length = numPagesOf n hi) (hle : lo ≤ hi) (hrow : RowView n V pages pages' lo) :
    Represents n (writeAll m (rowSlots n pages lo hi) (rowSlots n pages' lo hi))
      (V.put n pages pages' hi) := by
  intro x hx
  have hps : (n : Int) ≠ 0 := by omega
  obtain ⟨o, ho⟩ := eq_ofNat_of_zero_le (emod_nonneg x hps)
  have hon : o < n := by
    have := emod_lt_of_pos x (show (0 : Int) < n by omega)
    omega
  have hdm := mul_ediv_add_emod x n
  rw [ho] at hdm ⊢
  by_cases hp : x / n ∈ pages
  · have hmap' : (V.put n pages pages' hi).mapped (x / n) =
        min n (hi - pages.idxOf (x / n) * n) := if_pos hp
    have htarget' : (V.put n pages pages' hi).target (x / n) =
        pages'.getD (pages.idxOf (x / n)) 0 := if_pos hp
    rw [hmap', htarget']
    have hj := List.idxOf_lt_length_iff.mpr hp
    generalize hjdef : pages.idxOf (x / n) = j at hj ⊢
    have hget : pages[j] = x / n := by
      subst hjdef
      exact List.getElem_idxOf hj
    have hgetD : pages.getD j 0 = x / n := by
      rw [List.getD_eq_getElem?_getD, List.getElem?_eq_getElem hj, hget]
      rfl
    have hkd : (j * n + o) / n = j := by
      rw [Nat.add_comm, Nat.add_mul_div_right _ _ hn, Nat.div_eq_of_lt hon, Nat.zero_add]
    have hkm : (j * n + o) % n = o := by
      rw [Nat.add_comm, Nat.add_mul_mod_self_right, Nat.mod_eq_of_lt hon]
    obtain ⟨hmap, htarget⟩ := hrow j hj
    rw [hget] at hmap htarget
    have hnot : ¬ (lo ≤ j * n + o ∧ j * n + o < hi) → x ∉ rowSlots n pages lo hi := by
      rintro hno hmem
      obtain ⟨k, h₁, h₂, hk⟩ := mem_rowSlots.mp hmem
      obtain ⟨hd, hm⟩ := rowSlots_div_mod hn pages k
      rw [← hk] at hd hm
      have e₁ : j = k / n := getD_inj hnd hj
        (hlen ▸ div_lt_numPagesOf hn h₂) (by rw [hgetD, hd])
      have e₂ : o = k % n := by
        rw [ho] at hm
        exact_mod_cast hm
      have hk' := Nat.div_add_mod' k n
      rw [← e₁, ← e₂] at hk'
      exact hno ⟨hk' ▸ h₁, hk' ▸ h₂⟩
    have hwithin (k : Nat) : (o : Int) < ((min n k : Nat) : Int) ↔ o < k := by
      rw [ofNat_lt, Nat.lt_min, and_iff_right hon]
    by_cases hin : lo ≤ j * n + o ∧ j * n + o < hi
    · -- a place that is written
      rw [if_pos ((hwithin _).mpr (by omega))]
      obtain ⟨i, hi'⟩ := Nat.exists_eq_add_of_le hin.1
      have hxi := getElem?_rowSlots (n := n) pages (show lo + i < hi by omega)
      have hyi := getElem?_rowSlots (n := n) pages' (show lo + i < hi by omega)
      rw [← hi', hkd, hkm] at hxi hyi
      rw [hgetD] at hxi
      rw [mul_comm] at hdm
      rw [hdm] at hxi
      exact writeAll_getElem? (nodup_rowSlots hn hnd hlen.ge) hxi hyi
    · rw [writeAll_of_notMem (hnot hin), h x hx, ho, hmap]
      rcases Nat.lt_or_ge (j * n + o) lo with hlo | hlo
      · -- a place that had its entry
        rw [if_pos ((hwithin _).mpr (by omega)), if_pos ((hwithin _).mpr (by omega)),
          htarget (by omega)]
      · -- a place behind the row
        rw [if_neg fun hc => by have := (hwithin _).mp hc; omega,
          if_neg fun hc => by have := (hwithin _).mp hc; omega]
  · have hmap' : (V.put n pages pages' hi).mapped (x / n) = V.mapped (x / n) := if_neg hp
    have htarget' : (V.put n pages pages' hi).target (x / n) = V.target (x / n) := if_neg hp
    rw [hmap', htarget', writeAll_of_notMem, h x hx, ho]
    intro hmem
    obtain ⟨k, h₁, h₂, hk⟩ := mem_rowSlots.mp hmem
    obtain ⟨hd, -⟩ := rowSlots_div_mod hn pages k
    rw [← hk] at hd
    have hlt := hlen ▸ div_lt_numPagesOf hn h₂
    rw [hd, List.getD_eq_getElem?_getD, List.getElem?_eq_getElem hlt] at hp
    exact hp (List.getElem_mem hlt)

theorem Represents.wipe {d : Int → Prop} [DecidablePred d]
    (hxs : ∀ x, 0 ≤ x → (x ∈ xs ↔ d (x / n))) : Represents n (clearAll m xs) (V.wipe d) := by
  intro x hx
  by_cases hd : d (x / n)
  · have hneg : ¬ x % (n : Int) < ((0 : Nat) : Int) := by
      rcases Nat.eq_zero_or_pos n with rfl | hn
      · simpa using hx
      · have := emod_nonneg x (show (n : Int) ≠ 0 by omega)
        omega
    have hmap : (V.wipe d).mapped (x / n) = 0 := if_pos hd
    rw [hmap, if_neg hneg]
    exact if_pos ((hxs x hx).mpr hd)
  · have hmap : (V.wipe d).mapped (x / n) = V.mapped (x / n) := if_neg hd
    have hkeep : clearAll m xs x = m x := if_neg fun hmem => hd ((hxs x hx).mp hmem)
    rw [hmap, hkeep]
    exact h x hx

/-- Clearing what has no entry changes nothing. -/
theorem Represents.clear_zero (hxs : ∀ x ∈ xs, 0 ≤ x → m x = 0) :
    Represents n (clearAll m xs) V := by
  intro x hx
  rw [← h x hx, clearAll]
  split_ifs with hmem
  · exact (hxs x hmem hx).symm
  · rfl

end

namespace TableView

/-! ### The pages that are mapped to -/

theorem mapped_put_of_mem (hn : 0 < n) (hlen : pages.length = numPagesOf n hi) (hp : p ∈ pages) :
    0 < (V.put n pages pages' hi).mapped p := by
  have hj := List.idxOf_lt_length_iff.mpr hp
  rw [hlen, lt_numPagesOf hn] at hj
  simp only [put, if_pos hp]
  exact Nat.lt_min.mpr ⟨hn, by omega⟩

theorem put_getElem (hnd : pages.Nodup) {j : Nat} (hj : j < pages.length) :
    (V.put n pages pages' hi).target pages[j] = pages'.getD j 0 := by
  have hidx : pages.idxOf pages[j] = j := hnd.idxOf_getElem j hj
  simp only [put, if_pos (List.getElem_mem hj), hidx]

theorem mapped_put_getElem (hnd : pages.Nodup) {j : Nat} (hj : j < pages.length) :
    (V.put n pages pages' hi).mapped pages[j] = min n (hi - j * n) := by
  have hidx : pages.idxOf pages[j] = j := hnd.idxOf_getElem j hj
  simp only [put, if_pos (List.getElem_mem hj), hidx]

theorem getD_mem_drop {l : List Int} {j k : Nat} (hj : j < l.length) (hk : k ≤ j) :
    l.getD j 0 ∈ l.drop k := by
  rw [List.getD_eq_getElem?_getD, List.getElem?_eq_getElem hj]
  refine List.mem_of_getElem? (i := j - k) ?_
  rw [List.getElem?_drop, Nat.add_sub_cancel' hk, List.getElem?_eq_getElem hj]
  rfl

/-- **What a written row maps to**: the pages of before and those of the row. -/
theorem owns_put (hn : 0 < n) (hnd : pages.Nodup) (hlen : pages.length = numPagesOf n hi)
    (hlen' : pages'.length = pages.length) (hrow : RowView n V pages pages' lo) :
    (V.put n pages pages' hi).Owns q ↔ V.Owns q ∨ q ∈ pages'.drop (numPagesOf n lo) := by
  constructor
  · rintro ⟨p, hp, rfl⟩
    by_cases hmem : p ∈ pages
    · obtain ⟨j, hj, rfl⟩ := List.getElem_of_mem hmem
      rw [put_getElem hnd hj]
      rcases Nat.lt_or_ge j (numPagesOf n lo) with hlo | hlo
      · have hpos := (lt_numPagesOf hn).mp hlo
        obtain ⟨hmap, htarget⟩ := hrow j hj
        exact .inl ⟨pages[j], by rw [hmap]; exact Nat.lt_min.mpr ⟨hn, by omega⟩, htarget hpos⟩
      exact .inr (getD_mem_drop (hlen' ▸ hj) hlo)
    · simp only [put, if_neg hmem] at hp ⊢
      exact .inl ⟨p, hp, rfl⟩
  · rintro (⟨p, hp, rfl⟩ | hq)
    · by_cases hmem : p ∈ pages
      · obtain ⟨j, hj, rfl⟩ := List.getElem_of_mem hmem
        obtain ⟨hmap, htarget⟩ := hrow j hj
        have hlo : j * n < lo := by
          rw [hmap] at hp
          omega
        exact ⟨pages[j], mapped_put_of_mem hn hlen (List.getElem_mem hj), by
          rw [put_getElem hnd hj, htarget hlo]⟩
      · exact ⟨p, by simpa only [put, if_neg hmem] using hp, by simp only [put, if_neg hmem]⟩
    · obtain ⟨i, hi'⟩ := List.mem_iff_getElem?.mp hq
      rw [List.getElem?_drop] at hi'
      have hj := getElem?_lt hi'
      rw [hlen'] at hj
      refine ⟨pages[numPagesOf n lo + i], mapped_put_of_mem hn hlen (List.getElem_mem hj), ?_⟩
      rw [put_getElem hnd hj, List.getD_eq_getElem?_getD, hi']
      rfl

/-- No page is mapped to from two pages. -/
def Separate (V : TableView) : Prop :=
  ∀ p p', 0 < V.mapped p → 0 < V.mapped p' → V.target p = V.target p' → p = p'

theorem Separate.put (h : V.Separate) (hn : 0 < n) (hnd : pages.Nodup)
    (hlen' : pages'.length = pages.length) (hnd' : pages'.Nodup)
    (hrow : RowView n V pages pages' lo) (hnew : ∀ q ∈ pages'.drop (numPagesOf n lo), ¬ V.Owns q) :
    (V.put n pages pages' hi).Separate := by
  -- a page of the row and one outside it
  have hcross : ∀ p ∈ pages, ∀ p' ∉ pages, 0 < (V.put n pages pages' hi).mapped p' →
      (V.put n pages pages' hi).target p ≠ (V.put n pages pages' hi).target p' := by
    intro p hmem p' hp' hpos e
    obtain ⟨j, hj, rfl⟩ := List.getElem_of_mem hmem
    rw [put_getElem hnd hj] at e
    simp only [TableView.put, if_neg hp'] at e hpos
    rcases Nat.lt_or_ge j (numPagesOf n lo) with hlo | hlo
    · have hlo' := (lt_numPagesOf hn).mp hlo
      obtain ⟨hmap, htarget⟩ := hrow j hj
      have := h pages[j] p' (by rw [hmap]; exact Nat.lt_min.mpr ⟨hn, by omega⟩) hpos
        (by rw [htarget hlo', e])
      exact hp' (this ▸ List.getElem_mem hj)
    · exact hnew _ (getD_mem_drop (hlen' ▸ hj) hlo) ⟨p', hpos, e.symm⟩
  intro p p' hp hp' e
  by_cases hmem : p ∈ pages <;> by_cases hmem' : p' ∈ pages
  · obtain ⟨j, hj, rfl⟩ := List.getElem_of_mem hmem
    obtain ⟨j', hj', rfl⟩ := List.getElem_of_mem hmem'
    rw [put_getElem hnd hj, put_getElem hnd hj'] at e
    have := getD_inj hnd' (by omega) (by omega) e
    subst this
    rfl
  · exact absurd e (hcross p hmem p' hmem' hp')
  · exact absurd e.symm (hcross p' hmem' p hmem hp)
  · simp only [TableView.put, if_neg hmem, if_neg hmem'] at e hp hp'
    exact h p p' hp hp' e

section Wipe

variable {d : Int → Prop} [DecidablePred d]

theorem mapped_wipe_pos : 0 < (V.wipe d).mapped p ↔ 0 < V.mapped p ∧ ¬ d p := by
  simp only [wipe]
  split_ifs with hd <;> simp [hd]

theorem Separate.wipe (h : V.Separate) : (V.wipe d).Separate := fun p p' hp hp' e =>
  h p p' (mapped_wipe_pos.mp hp).1 (mapped_wipe_pos.mp hp').1 e

/-- Of a table whose pages are separate, clearing pages gives up exactly what they are mapped to. -/
theorem Separate.owns_wipe (h : V.Separate) :
    (V.wipe d).Owns q ↔ V.Owns q ∧ ¬ ∃ p, d p ∧ 0 < V.mapped p ∧ V.target p = q := by
  constructor
  · rintro ⟨p, hp, rfl⟩
    obtain ⟨hpos, hd⟩ := mapped_wipe_pos.mp hp
    refine ⟨⟨p, hpos, rfl⟩, fun ⟨p', hd', hpos', e⟩ => hd ?_⟩
    rwa [← h p' p hpos' hpos e]
  · rintro ⟨⟨p, hp, rfl⟩, hno⟩
    exact ⟨p, mapped_wipe_pos.mpr ⟨hp, fun hd => hno ⟨p, hd, hp, rfl⟩⟩, rfl⟩

end Wipe

end TableView

end Foundation
