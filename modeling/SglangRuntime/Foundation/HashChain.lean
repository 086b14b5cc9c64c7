import SglangRuntime.Foundation.PageList

/-!
# Foundation — chains of page hashes

A list is hashed page by page, each page together with the digest before it (`hashPages`).  Cutting
the list at a page boundary cuts the chain (`chainOf_append`), and if the hash function is injective
the digest of a page determines everything up to that page (`digestAfter_inj`).
-/

namespace Foundation

open List

variable {U D : Type}

/-- The digests of the first `k` pages of `n` elements. -/
def hashPages (H : Option D → List U → D) (n : Nat) : Nat → Option D → List U → List D
  | 0, _, _ => []
  | k + 1, prior, us => H prior (us.take n) :: hashPages H n k (some (H prior (us.take n))) (us.drop n)

/-- The digests of all pages, the last one perhaps not full. -/
def chainOf (H : Option D → List U → D) (n : Nat) (prior : Option D) (us : List U) : List D :=
  hashPages H n (numPagesOf n us.length) prior us

/-- The digest that is current after `k` pages. -/
def digestAfter (H : Option D → List U → D) (n : Nat) : Nat → Option D → List U → Option D
  | 0, prior, _ => prior
  | k + 1, prior, us => digestAfter H n k (some (H prior (us.take n))) (us.drop n)

variable {H : Option D → List U → D} {n : Nat} {k : Nat} {us : List U}

@[simp] theorem length_hashPages (k : Nat) (prior : Option D) (us : List U) :
    (hashPages H n k prior us).length = k := by
  induction k generalizing prior us with
  | zero => rfl
  | succ k ih => rw [hashPages, length_cons, ih]

@[simp] theorem length_chainOf (prior : Option D) (us : List U) :
    (chainOf H n prior us).length = numPagesOf n us.length :=
  length_hashPages _ _ _

theorem getElem?_hashPages {j : Nat} (hj : j < k) (prior : Option D) (us : List U) :
    (hashPages H n k prior us)[j]? = digestAfter H n (j + 1) prior us := by
  induction k generalizing j prior us with
  | zero => omega
  | succ k ih =>
    rw [hashPages, digestAfter]
    cases j with
    | zero => rfl
    | succ j => rw [getElem?_cons_succ, ih (by omega)]

/-- Only the first `k` pages count. -/
theorem hashPages_append (k : Nat) (prior : Option D) (h : k * n ≤ us.length)
    (vs : List U) : hashPages H n k prior (us ++ vs) = hashPages H n k prior us ∧
      digestAfter H n k prior (us ++ vs) = digestAfter H n k prior us := by
  induction k generalizing prior us with
  | zero => exact ⟨rfl, rfl⟩
  | succ k ih =>
    have hn : n ≤ us.length := by
      rw [Nat.add_mul] at h
      omega
    have hrest : k * n ≤ (us.drop n).length := by
      rw [length_drop]
      rw [Nat.add_mul] at h
      omega
    simp only [hashPages, digestAfter, take_append_of_le_length hn,
      drop_append_of_le_length hn, ih _ hrest, and_self]

theorem hashPages_add (k m : Nat) (prior : Option D) (us : List U) :
    hashPages H n (k + m) prior us =
      hashPages H n k prior us ++ hashPages H n m (digestAfter H n k prior us) (us.drop (k * n)) ∧
    digestAfter H n (k + m) prior us =
      digestAfter H n m (digestAfter H n k prior us) (us.drop (k * n)) := by
  induction k generalizing prior us with
  | zero => simp [hashPages, digestAfter]
  | succ k ih =>
    have hd : us.drop ((k + 1) * n) = (us.drop n).drop (k * n) := by
      rw [drop_drop, Nat.add_mul, Nat.one_mul, Nat.add_comm]
    rw [Nat.succ_add, hd]
    simp only [hashPages, digestAfter, cons_append, ih, and_self]

/-- **Cut at a page boundary.** -/
theorem chainOf_append (hn : 0 < n) (prior : Option D)
    (h : us.length = k * n) (vs : List U) : chainOf H n prior (us ++ vs) =
      chainOf H n prior us ++ chainOf H n (digestAfter H n k prior us) vs := by
  have hk : numPagesOf n us.length = k := by rw [h, numPagesOf_mul hn]
  have hlen : numPagesOf n (us ++ vs).length = k + numPagesOf n vs.length := by
    rw [length_append, h, numPagesOf_mul_add hn]
  have hpre := hashPages_append (H := H) k prior h.ge vs
  rw [chainOf, hlen, (hashPages_add k _ prior (us ++ vs)).1, hpre.1, hpre.2, ← h,
    drop_left' rfl, chainOf, hk, chainOf]

theorem digestAfter_succ (k : Nat) (prior : Option D) (us : List U) :
    digestAfter H n (k + 1) prior us =
      some (H (digestAfter H n k prior us) ((us.drop (k * n)).take n)) := by
  rw [(hashPages_add k 1 prior us).2]
  rfl

theorem digestAfter_some (k : Nat) (d : D) (us : List U) :
    ∃ d', digestAfter H n k (some d) us = some d' := by
  cases k with
  | zero => exact ⟨d, rfl⟩
  | succ k => exact ⟨_, digestAfter_succ k _ us⟩

/-- **A digest determines the pages up to it.** -/
theorem digestAfter_inj (hH : ∀ p p' us us', H p us = H p' us' → p = p' ∧ us = us') {a b : Nat}
    {vs : List U} (h : digestAfter H n a none us = digestAfter H n b none vs) :
    a = b ∧ us.take (a * n) = vs.take (b * n) := by
  induction a generalizing b with
  | zero =>
    cases b with
    | zero => simp
    | succ b =>
      rw [digestAfter_succ] at h
      cases h
  | succ a ih =>
    cases b with
    | zero =>
      rw [digestAfter_succ] at h
      cases h
    | succ b =>
      rw [digestAfter_succ, digestAfter_succ, Option.some.injEq] at h
      obtain ⟨hp, hpage⟩ := hH _ _ _ _ h
      obtain ⟨rfl, htake⟩ := ih hp
      refine ⟨rfl, ?_⟩
      rw [Nat.add_mul, Nat.one_mul, take_add, take_add, htake, hpage]

end Foundation
