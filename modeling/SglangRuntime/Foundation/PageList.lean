import SglangRuntime.Foundation.CommonPrefix

/-!
# Foundation — slots in pages

A slot is a number; the slots `p * n, …, p * n + (n - 1)` form page `p`.  A list of slots covers a
list of pages if it runs through the pages one after the other, the last one perhaps not to its end
(`Covers`).  Then the pages are what is read off at every `n`-th place (`pagesOf`), and cutting the
list at a page boundary cuts the pages (`Covers.take`, `Covers.drop`).
-/

namespace Foundation

open List Int

variable {n : Nat} {l l' pages pages' : List Int} {α : Type*} {i o : Nat}

/-- The number of pages that `len` slots reach into. -/
def numPagesOf (n len : Nat) : Nat := (len + n - 1) / n

theorem getElem?_map_range {f : Nat → α} {k : Nat} {x : α} :
    ((List.range k).map f)[i]? = some x ↔ i < k ∧ f i = x := by
  simp [getElem?_eq_some_iff]

section

variable (hn : 0 < n)
include hn

theorem lt_numPagesOf {i len : Nat} : i < numPagesOf n len ↔ i * n < len := by
  rw [numPagesOf, Nat.lt_iff_add_one_le, Nat.le_div_iff_mul_le hn, Nat.add_mul]
  omega

theorem div_lt_numPagesOf {i len : Nat} (h : i < len) : i / n < numPagesOf n len :=
  (lt_numPagesOf hn).mpr ((Nat.div_mul_le_self i n).trans_lt h)

theorem numPagesOf_mul_add (k len : Nat) : numPagesOf n (k * n + len) = k + numPagesOf n len := by
  have e : k * n + len + n - 1 = len + n - 1 + k * n := by omega
  rw [numPagesOf, e, Nat.add_mul_div_right _ _ hn, Nat.add_comm, numPagesOf]

@[simp] theorem numPagesOf_zero : numPagesOf n 0 = 0 :=
  Nat.div_eq_of_lt (by omega)

theorem numPagesOf_mul (k : Nat) : numPagesOf n (k * n) = k := by
  have := numPagesOf_mul_add hn k 0
  rwa [Nat.add_zero, numPagesOf_zero hn, Nat.add_zero] at this

theorem numPagesOf_succ (m : Nat) : numPagesOf n (m + 1) = m / n + 1 := by
  rw [numPagesOf, Nat.add_right_comm, Nat.add_sub_cancel, Nat.add_div_right _ hn]

theorem numPagesOf_eq (m : Nat) : numPagesOf n m = m / n + if m % n = 0 then 0 else 1 := by
  rcases m with - | m
  · simp [numPagesOf_zero hn]
  · simp only [numPagesOf_succ hn, Nat.succ_div, ← Nat.dvd_iff_mod_eq_zero]
    split_ifs <;> rfl

end

theorem numPagesOf_mono {len len' : Nat} (h : len ≤ len') : numPagesOf n len ≤ numPagesOf n len' :=
  Nat.div_le_div_right (by omega)

theorem le_numPagesOf_mul (hn : 0 < n) (len : Nat) : len ≤ numPagesOf n len * n := by
  by_contra h
  exact absurd ((lt_numPagesOf hn).mpr (not_le.mp h)) (lt_irrefl _)

/-- `l[::n]`. -/
def stride (n : Nat) (l : List Int) : List Int :=
  (List.range (numPagesOf n l.length)).map fun i => l.getD (i * n) 0

/-- The pages of the slots at every `n`-th place. -/
def pagesOf (n : Nat) (l : List Int) : List Int := (stride n l).map (· / (n : Int))

structure Covers (n : Nat) (l pages : List Int) : Prop where
  length : pages.length = numPagesOf n l.length
  slot : ∀ (i : Nat) (x : Int), l[i]? = some x → pages[i / n]? = some (x / n) ∧ x % n = ((i % n : Nat) : Int)

/-- The page of a slot and its place in the page. -/
theorem slot_div_mod (p : Int) (ho : o < n) :
    (p * n + (o : Int)) / n = p ∧ (p * n + (o : Int)) % n = o := by
  have hlt : (o : Int) < n := by exact_mod_cast ho
  have hn : (n : Int) ≠ 0 := by omega
  rw [add_comm, add_mul_ediv_right _ _ hn, add_mul_emod_self_right,
    ediv_eq_zero_of_lt (natCast_nonneg o) hlt, emod_eq_of_lt (natCast_nonneg o) hlt]
  exact ⟨zero_add p, rfl⟩

/-- The slot before one that is not the first of its page. -/
theorem slot_of_succ_emod {x : Int} (ho : o < n) (h : (x + 1) % n = ((o + 1 : Nat) : Int)) :
    x = x / n * n + (o : Int) := by
  have hq := emod_add_mul_ediv (x + 1) n
  rw [h, mul_comm] at hq
  have hx : x = (x + 1) / n * n + (o : Int) := by
    omega
  have hdiv := (slot_div_mod ((x + 1) / n) ho).1
  rw [← hx] at hdiv
  rw [hdiv]
  exact hx

theorem getElem?_lt {l : List α} {x : α} (h : l[i]? = some x) : i < l.length :=
  (List.getElem?_eq_some_iff.mp h).1

namespace Covers

section

variable (hn : 0 < n)
include hn

theorem nil : Covers n [] [] := by
  refine ⟨?_, fun i x h => by simp at h⟩
  simp [numPagesOf_zero hn]

section

variable (h : Covers n l pages) {k : Nat}
include h

/-- The pages can be read off the list. -/
theorem pagesOf_eq : pagesOf n l = pages := by
  refine ext_getElem? fun i => ?_
  simp only [pagesOf, stride, map_map, getElem?_map]
  by_cases hi : i < numPagesOf n l.length
  · have hlt : i * n < l.length := (lt_numPagesOf hn).mp hi
    have hs := (h.slot (i * n) _ (getElem?_eq_getElem hlt)).1
    rw [Nat.mul_div_cancel _ hn] at hs
    rw [getElem?_range hi, hs]
    simp [getD_eq_getElem?_getD, getElem?_eq_getElem hlt]
  · have hl : pages[i]? = none := getElem?_eq_none (by rw [h.length]; omega)
    rw [hl, getElem?_eq_none (by simpa using hi)]
    rfl

theorem mem_iff {p : Int} : p ∈ pages ↔ ∃ x ∈ l, x / n = p := by
  constructor
  · intro hp
    obtain ⟨i, hi, rfl⟩ := getElem_of_mem hp
    have hlt : i * n < l.length := (lt_numPagesOf hn).mp (h.length ▸ hi)
    have hs := (h.slot (i * n) _ (getElem?_eq_getElem hlt)).1
    rw [Nat.mul_div_cancel _ hn, getElem?_eq_getElem hi, Option.some.injEq] at hs
    exact ⟨_, getElem_mem hlt, hs.symm⟩
  · rintro ⟨x, hx, rfl⟩
    obtain ⟨i, hi⟩ := mem_iff_getElem?.mp hx
    exact mem_of_getElem? (h.slot i x hi).1

theorem take (hk : k ≤ l.length) : Covers n (l.take k) (pages.take (numPagesOf n k)) := by
  refine ⟨?_, fun i x hx => ?_⟩
  · rw [length_take, length_take, Nat.min_eq_left hk, h.length,
      Nat.min_eq_left (numPagesOf_mono hk)]
  have hi : i < k := by
    have := getElem?_lt hx
    rw [length_take] at this
    omega
  rw [getElem?_take_of_lt hi] at hx
  rw [getElem?_take_of_lt (div_lt_numPagesOf hn hi)]
  exact h.slot i x hx

theorem drop (k : Nat) : Covers n (l.drop (k * n)) (pages.drop k) := by
  refine ⟨?_, fun i x hx => ?_⟩
  · rw [length_drop, length_drop, h.length]
    rcases Nat.le_total (k * n) l.length with hle | hle
    · obtain ⟨m, hm⟩ := Nat.exists_eq_add_of_le hle
      rw [hm, numPagesOf_mul_add hn]
      simp
    · have h₁ := numPagesOf_mono (n := n) hle
      rw [numPagesOf_mul hn] at h₁
      rw [Nat.sub_eq_zero_of_le hle, numPagesOf_zero hn]
      omega
  · rw [getElem?_drop] at hx
    obtain ⟨hp, hm⟩ := h.slot _ x hx
    rw [Nat.add_comm, Nat.add_mul_div_right _ _ hn] at hp
    rw [Nat.add_comm, Nat.add_mul_mod_self_right] at hm
    rw [getElem?_drop, Nat.add_comm]
    exact ⟨hp, hm⟩

/-- The pages of a part that starts at a page boundary are those up to its end without those before. -/
theorem count_slice {i b : Nat} (hi : i * n ≤ b) (hb : b ≤ l.length) (p : Int) :
    (pagesOf n (slice l (i * n) b)).count p + (pages.take i).count p =
      (pages.take (numPagesOf n b)).count p := by
  have hle : i ≤ numPagesOf n b := numPagesOf_mul hn i ▸ numPagesOf_mono hi
  have hc := (h.take hn hb).drop hn i
  have hsplit := congrArg (List.count p) (take_append_drop i (pages.take (numPagesOf n b)))
  rw [count_append, take_take, Nat.min_eq_left hle] at hsplit
  rw [slice, hc.pagesOf_eq hn, Nat.add_comm]
  exact hsplit


/-- A list that ends at a page boundary can be continued with new pages. -/
theorem append (h' : Covers n l' pages')
    (hd : pages.length * n = l.length) : Covers n (l ++ l') (pages ++ pages') := by
  refine ⟨?_, fun i x hx => ?_⟩
  · rw [length_append, length_append, ← hd, numPagesOf_mul_add hn, h'.length]
  rcases Nat.lt_or_ge i l.length with hi | hi
  · rw [getElem?_append_left hi] at hx
    obtain ⟨hp, hm⟩ := h.slot i x hx
    exact ⟨by rw [getElem?_append_left (getElem?_lt hp)]; exact hp, hm⟩
  rw [getElem?_append_right hi] at hx
  obtain ⟨j, rfl⟩ := Nat.exists_eq_add_of_le hi
  rw [Nat.add_sub_cancel_left] at hx
  obtain ⟨hp, hm⟩ := h'.slot j x hx
  have hdiv : (l.length + j) / n = pages.length + j / n := by
    rw [← hd, Nat.add_comm, Nat.add_mul_div_right _ _ hn, Nat.add_comm]
  have hmod : (l.length + j) % n = j % n := by
    rw [← hd, Nat.add_comm, Nat.add_mul_mod_self_right]
  rw [hdiv, hmod, getElem?_append_right (Nat.le_add_right _ _), Nat.add_sub_cancel_left]
  exact ⟨hp, hm⟩

/-- The last page can be filled up with the slots that follow the last one. -/
theorem fill {last : Int}
    (hlast : 0 < k → l.getLast? = some last) (hk : l.length + k ≤ pages.length * n) :
    Covers n (l ++ (List.range k).map fun i : Nat => last + 1 + (i : Int)) pages := by
  refine ⟨?_, fun i x hx => ?_⟩
  · rw [length_append, length_map, length_range]
    refine Nat.le_antisymm ?_ ?_
    · rw [h.length]
      exact numPagesOf_mono (Nat.le_add_right _ _)
    · calc numPagesOf n (l.length + k) ≤ numPagesOf n (pages.length * n) := numPagesOf_mono hk
        _ = pages.length := numPagesOf_mul hn _
  · rcases Nat.lt_or_ge i l.length with hi | hi
    · rw [getElem?_append_left hi] at hx
      exact h.slot i x hx
    rw [getElem?_append_right hi] at hx
    obtain ⟨j, rfl⟩ := Nat.exists_eq_add_of_le hi
    rw [Nat.add_sub_cancel_left] at hx
    obtain ⟨hjk, rfl⟩ := getElem?_map_range.mp hx
    -- the last slot, and with it the page that has room
    have hl := hlast (by omega)
    rw [getLast?_eq_getElem?] at hl
    have hpos : 0 < l.length := by
      rcases Nat.eq_zero_or_pos l.length with h0 | h0
      · rw [length_eq_zero_iff.mp h0] at hl
        simp at hl
      · exact h0
    obtain ⟨hp, hm⟩ := h.slot _ last hl
    have hpages : pages.length = (l.length - 1) / n + 1 := by
      have := getElem?_lt hp
      have h₂ : pages.length ≤ (l.length - 1) / n + 1 := by
        rw [h.length, numPagesOf, Nat.div_le_iff_le_mul_add_pred hn]
        have := Nat.div_add_mod (l.length - 1) n
        have := Nat.mod_lt (l.length - 1) hn
        rw [Nat.mul_add]
        omega
      omega
    -- no page boundary between the last slot and the new one
    have hroom : (l.length - 1) % n + 1 + j < n := by
      have := Nat.div_add_mod (l.length - 1) n
      rw [hpages, Nat.add_mul, Nat.one_mul, Nat.mul_comm] at hk
      omega
    have hidx : l.length + j = (l.length - 1) / n * n + ((l.length - 1) % n + 1 + j) := by
      have := Nat.div_add_mod (l.length - 1) n
      rw [Nat.mul_comm] at this
      omega
    have hdiv : (l.length + j) / n = (l.length - 1) / n := by
      rw [hidx, Nat.add_comm, Nat.add_mul_div_right _ _ hn, Nat.div_eq_of_lt hroom, Nat.zero_add]
    have hmod : (l.length + j) % n = (l.length - 1) % n + 1 + j := by
      rw [hidx, Nat.add_comm, Nat.add_mul_mod_self_right, Nat.mod_eq_of_lt hroom]
    have hx : last + 1 + (j : Int) =
        last / n * n + (((l.length - 1) % n + 1 + j : Nat) : Int) := by
      have := emod_add_mul_ediv last n
      rw [hm, mul_comm] at this
      omega
    rw [hdiv, hmod, hp, hx, (slot_div_mod _ hroom).1, (slot_div_mod _ hroom).2]
    exact ⟨rfl, rfl⟩

end

/-- The slots of given pages, in order. -/
theorem slots {k : Nat} {f : Nat → Int} (hlen : pages.length = numPagesOf n k)
    (hf : ∀ i < pages.length, pages[i]? = some (f i)) :
    Covers n ((List.range k).map fun o => f (o / n) * n + ((o % n : Nat) : Int)) pages := by
  refine ⟨by rw [length_map, length_range, hlen], fun i x hx => ?_⟩
  obtain ⟨hik, rfl⟩ := getElem?_map_range.mp hx
  have ho := Nat.mod_lt i hn
  rw [hf _ (hlen ▸ div_lt_numPagesOf hn hik), (slot_div_mod _ ho).1, (slot_div_mod _ ho).2]
  exact ⟨rfl, rfl⟩

end

end Covers

end Foundation
