import SglangRuntime.MemCache.SwaPool.Run

/-!
# Memory cache — allocation on both sides is all or nothing

A call that finds the pages on both sides returns slots: each side has handed out the pages that
were counted, and every new full slot has a SWA slot of its own (`Granted`).  Otherwise it returns
`None` and the free pages of both sides and the table are as before (`Refused`).
`alloc_extend_swa_tail` counts the pages of the two sides separately.  `alloc_decode` asks both sides without counting, so a
batch that exactly one side can serve takes its pages there (`allocDecode_notAtomic`).
-/

namespace SglangRuntime.SwaPool

open Foundation PagedAllocator List

/-! ### Slots are positive -/

variable {m : Int → Int} {free : List Int} {batch : List Extension}

theorem writeAll_mem {xs ys : List Int} {x : Int} (hx : x ∈ xs)
    (hlen : xs.length = ys.length) : writeAll m xs ys x ∈ ys := by
  induction xs generalizing m ys with
  | nil => cases hx
  | cons x' xs ih =>
    cases ys with
    | nil => cases hlen
    | cons y ys =>
      by_cases hmem : x ∈ xs
      · exact mem_cons_of_mem _ (ih hmem (by simpa using hlen))
      obtain rfl := (mem_cons.mp hx).resolve_right hmem
      have hval : writeAll m (x :: xs) (y :: ys) x = y := by
        change writeAll (Function.update m x y) xs ys x = y
        rw [writeAll_of_notMem hmem, Function.update_self]
      rw [hval]
      exact mem_cons_self

variable {n : Nat} {e : Extension}

theorem rowSlots_pos (hn : 0 < n) {pages : List Int} {lo hi : Nat} (hpages : ∀ p ∈ pages, 0 < p)
    (hlen : numPagesOf n hi ≤ pages.length) : ∀ x ∈ rowSlots n pages lo hi, 0 < x := by
  intro x hx
  obtain ⟨k, -, hk, rfl⟩ := mem_rowSlots.mp hx
  have hlt : k / n < pages.length := by
    refine Nat.lt_of_lt_of_le ?_ hlen
    rw [Nat.div_lt_iff_lt_mul hn]
    exact hk.trans_le (le_numPagesOf_mul hn hi)
  rw [getD_eq_getElem?_getD, getElem?_eq_getElem hlt, Option.getD_some]
  have hpos := Int.mul_pos (hpages _ (getElem_mem hlt)) (Int.natCast_pos.mpr hn)
  omega

/-- A consistent extension whose partial page is not the padding page. -/
structure Placed (n : Nat) (e : Extension) : Prop where
  le : e.prefixLen ≤ e.seqLen
  mod : ¬ n ∣ e.prefixLen → (e.lastLoc + 1) % (n : Int) = ((e.prefixLen % n : Nat) : Int)
  pos : ¬ n ∣ e.prefixLen → 0 < e.lastLoc / (n : Int)

theorem Placed.slots_pos (h : Placed n e) (hn : 0 < n)
    (hfree : e.numNewPages n ≤ free.length) (hpos : ∀ p ∈ free, 0 < p) :
    ∀ x ∈ e.slots n free, 0 < x := by
  obtain ⟨hs, hlen⟩ := slots_eq_rowSlots hn h.le h.mod hfree
  rw [hs]
  refine rowSlots_pos hn (fun p hp => ?_) hlen.ge
  rcases mem_append.mp hp with hp | hp
  · split_ifs at hp with hd
    · cases hp
    · rw [mem_singleton.mp hp]
      exact h.pos hd
  · exact hpos p (mem_of_mem_take hp)

theorem kernel_pos (hn : 0 < n)
    (hb : ∀ e ∈ batch, Placed n e) (hsum : (batch.map (·.numNewPages n)).sum ≤ free.length)
    (hpos : ∀ p ∈ free, 0 < p) : ∀ x ∈ (allocExtendKernel n batch free).flatten, 0 < x := by
  induction batch generalizing free with
  | nil => simp [allocExtendKernel]
  | cons e batch ih =>
    rw [map_cons, sum_cons] at hsum
    intro x hx
    rw [allocExtendKernel, flatten_cons, mem_append] at hx
    rcases hx with hx | hx
    · exact (hb e mem_cons_self).slots_pos hn (by omega) hpos x hx
    · refine ih (fun e' he' => hb e' (mem_cons_of_mem _ he')) ?_
        (fun p hp => hpos p (mem_of_mem_drop hp)) x hx
      rw [length_drop]
      omega

/-! ### All or nothing -/

/-- `k` pages have left the free lists. -/
def Takes (a a' : PagedAllocator) (k : Nat) : Prop :=
  ∃ pages : List Int, pages.length = k ∧
    (a'.freePages ++ a'.releasePages ++ pages).Perm (a.freePages ++ a.releasePages)

theorem takes_zero (a : PagedAllocator) : Takes a a 0 := ⟨[], rfl, by simp⟩

theorem takes_of_took {g : PoolConfig} {a a' : PagedAllocator} {k : Nat}
    (h : Took g a a' free k) : Takes a a' k := by
  refine ⟨free.take k, by rw [length_take, Nat.min_eq_left h.enough], ?_⟩
  rw [perm_iff_count]
  intro p
  rw [count_append]
  exact h.count p

variable {c : SwaConfig} {s : State} {V : TableView} {a : SwaPool} {out : List Slot} {k : Nat}

/-- The call has returned `out`, of which the first `k` slots have no SWA slot. -/
structure Granted (s : State) (nF nS k : Nat) (out : List Slot) (a : SwaPool) : Prop where
  full : Takes s.pool.fullAttnAllocator a.fullAttnAllocator nF
  swa : Takes s.pool.swaAttnAllocator a.swaAttnAllocator nS
  mapped : ∀ x ∈ out.drop k, 0 < a.fullToSwaIndexMapping x ∧
    ∀ y, 0 ≤ y → a.fullToSwaIndexMapping y = a.fullToSwaIndexMapping x → y = x
  unmapped : ∀ x ∈ out.take k, a.fullToSwaIndexMapping x = 0

/-- Nothing has changed but the order of the free lists. -/
structure Refused (s : State) (a : SwaPool) : Prop where
  full : Takes s.pool.fullAttnAllocator a.fullAttnAllocator 0
  swa : Takes s.pool.swaAttnAllocator a.swaAttnAllocator 0
  mapping : a.fullToSwaIndexMapping = s.pool.fullToSwaIndexMapping

/-- The call returns, and it grants or refuses. -/
def Atomic (s : State) (nF nS k : Nat) (r : Option (Option (List Slot) × SwaPool)) : Prop :=
  (HasPages s nF nS ∧ ∃ out a, r = some (some out, a) ∧ Granted s nF nS k out a) ∨
    (¬ HasPages s nF nS ∧ ∃ a, r = some (none, a) ∧ Refused s a)

theorem refused_self (s : State) : Refused s s.pool :=
  ⟨takes_zero _, takes_zero _, rfl⟩

/-- The entries that are positive lead to a slot each. -/
theorem Allocates.own (h : Allocates c s (some (some out, a))) {x : Slot} (hx : 0 < x)
    (hm : 0 < a.fullToSwaIndexMapping x) : ∀ y, 0 ≤ y →
      a.fullToSwaIndexMapping y = a.fullToSwaIndexMapping x → y = x := by
  obtain ⟨_, _, ⟨⟩, V', hinv⟩ := h
  intro y hy e
  exact (hinv.core.entries_inj hx.le hy hm.ne' e.symm).symm

/-- All new slots are written. -/
theorem Allocates.mapped (h : Allocates c s (some (some out, a))) {outS : List Slot}
    (hm : a.fullToSwaIndexMapping = writeAll m out outS) (hlen : out.length = outS.length)
    (hF : ∀ x ∈ out, 0 < x) (hS : ∀ y ∈ outS, 0 < y) :
    ∀ x ∈ out.drop 0, 0 < a.fullToSwaIndexMapping x ∧
      ∀ y, 0 ≤ y → a.fullToSwaIndexMapping y = a.fullToSwaIndexMapping x → y = x := by
  intro x hx
  have hpos : 0 < a.fullToSwaIndexMapping x := by
    rw [hm]
    exact hS _ (writeAll_mem hx hlen)
  exact ⟨hpos, h.own (hF x hx) hpos⟩

/-! ### The pages of both sides -/

theorem Inv.full_pos (h : Inv c s V) {full : PagedAllocator} {freeF : List Int}
    (hF : Took c.full s.pool.fullAttnAllocator full freeF k) : ∀ p ∈ freeF, 0 < p := by
  intro p hp
  refine Core.nonneg_of_mem (h.core.full_mem p (.inl ?_))
  have h₁ := count_pos_iff.mpr hp
  have h₂ := hF.sub p
  unfold fullTotal
  omega

theorem Inv.swa_pos (h : Inv c s V) {swa : PagedAllocator} {freeS : List Int}
    (hS : Took c.swa s.pool.swaAttnAllocator swa freeS k) : ∀ p ∈ freeS, 0 < p := by
  intro p hp
  refine Core.nonneg_of_mem ((h.core.swa_mem p).mp (.inl ?_))
  have h₁ := count_pos_iff.mpr hp
  have h₂ := hS.sub p
  unfold swaTotal
  omega

theorem Inv.placed (h : Inv c s V) (hc : Continues c s.filled e) : Placed c.pageSize e ∧
    Placed c.pageSize (swaExtension s.pool.fullToSwaIndexMapping e) := by
  have hheld (hd : ¬ c.pageSize ∣ e.prefixLen) : 0 < e.prefixLen % c.pageSize :=
    Nat.pos_of_ne_zero fun h0 => hd (Nat.dvd_of_mod_eq_zero h0)
  have hpage (hd : ¬ c.pageSize ∣ e.prefixLen) : 0 < e.lastLoc / (c.pageSize : Int) :=
    Core.nonneg_of_mem (h.core.full_mem _ (.inr (by rw [(hc.last hd).1]; exact hheld hd)))
  have ht (hd : ¬ c.pageSize ∣ e.prefixLen) :=
    translate_last h.core.rep h.core.view hc hd (hpage hd).le
  refine ⟨⟨hc.le, fun hd => (hc.last hd).2, hpage⟩, ⟨hc.le, fun hd => (ht hd).2.2, fun hd => ?_⟩⟩
  change 0 < s.pool.fullToSwaIndexMapping e.lastLoc / (c.pageSize : Int)
  rw [(ht hd).2.1]
  exact h.core.target_pos (by rw [(ht hd).1]; exact hheld hd)

/-! ### The calls -/

/-- A call that counts the pages is all or nothing if its slots are positive. -/
theorem Counted.atomic {nF nS : Nat} {outF outS : List Int → List Slot}
    {r : Option (Option (List Slot) × SwaPool)} (h : Counted c s nF nS outF outS r)
    (hA : Allocates c s r) (hlen : ∀ freeF freeS, nF ≤ freeF.length → nS ≤ freeS.length →
      (outF freeF).length = (outS freeS).length)
    (hF : ∀ full freeF, Took c.full s.pool.fullAttnAllocator full freeF nF → ∀ x ∈ outF freeF, 0 < x)
    (hS : ∀ swa freeS, Took c.swa s.pool.swaAttnAllocator swa freeS nS → ∀ y ∈ outS freeS, 0 < y) :
    Atomic s nF nS 0 r := by
  rcases h with ⟨hp, freeF, freeS, full, swa, tookF, tookS, rfl⟩ | ⟨hp, rfl⟩
  · exact .inl ⟨hp, _, _, rfl, takes_of_took tookF, takes_of_took tookS,
      hA.mapped rfl (hlen _ _ tookF.enough tookS.enough) (hF _ _ tookF) (hS _ _ tookS), by simp⟩
  · exact .inr ⟨hp, _, rfl, refused_self s⟩

section

variable (h : Inv c s V)
include h

theorem Inv.alloc_atomic (h1 : c.pageSize = 1) (needSize : Nat) :
    Atomic s needSize needSize 0 (s.pool.alloc c needSize) := by
  have hpages (l : List Int) (hl : needSize ≤ l.length) :
      numPagesOf c.pageSize (needSize * c.pageSize) ≤ (l.take needSize).length := by
    rw [numPagesOf_mul c.pageSize_pos, length_take, Nat.min_eq_left hl]
  refine (h.alloc_counted h1 needSize).atomic (h.alloc h1 needSize) (by simp) ?_ ?_
  · intro full freeF tookF
    exact rowSlots_pos c.pageSize_pos
      (fun p hp => h.full_pos tookF p (mem_of_mem_take hp)) (hpages _ tookF.enough)
  · intro swa freeS tookS
    exact rowSlots_pos c.pageSize_pos
      (fun p hp => h.swa_pos tookS p (mem_of_mem_take hp)) (hpages _ tookS.enough)

/-- The slots of a batch on both sides. -/
theorem Inv.batch_pos (hc : ∀ e ∈ batch, Continues c s.filled e) {nF nS : Nat}
    (hnF : nF = (batch.map (·.numNewPages c.pageSize)).sum)
    (hnS : nS = (batch.map (·.numNewPages c.pageSize)).sum) :
    (∀ freeF freeS, (allocExtendKernel c.pageSize batch freeF).flatten.length =
      (allocExtendKernel c.pageSize
        (batch.map (swaExtension s.pool.fullToSwaIndexMapping)) freeS).flatten.length) ∧
    (∀ full freeF, Took c.full s.pool.fullAttnAllocator full freeF nF →
      ∀ x ∈ (allocExtendKernel c.pageSize batch freeF).flatten, 0 < x) ∧
    ∀ swa freeS, Took c.swa s.pool.swaAttnAllocator swa freeS nS →
      ∀ y ∈ (allocExtendKernel c.pageSize
        (batch.map (swaExtension s.pool.fullToSwaIndexMapping)) freeS).flatten, 0 < y := by
  have hn := c.pageSize_pos
  have hle : ∀ e ∈ batch, e.prefixLen ≤ e.seqLen := fun e he => (hc e he).le
  have hleS : ∀ e ∈ batch.map (swaExtension s.pool.fullToSwaIndexMapping),
      e.prefixLen ≤ e.seqLen := by
    simpa [swaExtension] using hle
  refine ⟨fun freeF freeS => ?_, fun full freeF tookF => ?_, fun swa freeS tookS => ?_⟩
  · rw [length_kernel hn hle, length_kernel hn hleS, map_map]
    rfl
  · exact kernel_pos hn (fun e he => (h.placed (hc e he)).1) (hnF ▸ tookF.enough) (h.full_pos tookF)
  · refine kernel_pos hn (fun e he => ?_) ?_ (h.swa_pos tookS)
    · obtain ⟨e', he', rfl⟩ := mem_map.mp he
      exact (h.placed (hc e' he')).2
    · rw [map_map]
      exact hnS ▸ tookS.enough

theorem Inv.allocExtend_atomic (ok : Allowed c s (.allocExtend batch)) :
    Atomic s (batch.map (·.numNewPages c.pageSize)).sum (batch.map (·.numNewPages c.pageSize)).sum 0
      (s.pool.allocExtend c batch) := by
  obtain ⟨hlen, hF, hS⟩ := h.batch_pos ok.2.1 rfl rfl
  exact (h.allocExtend_counted ok.1 fun e he => (ok.2.1 e he).le).atomic (h.allocExtend ok)
    (fun freeF freeS _ _ => hlen freeF freeS) hF hS

theorem Inv.allocExtendSwaTail_atomic {t : Nat}
    (ok : Allowed c s (.allocExtendSwaTail e t)) :
    Atomic s (e.numNewPages c.pageSize) (numPagesOf c.pageSize t) (e.seqLen - e.prefixLen - t)
      (s.pool.allocExtendSwaTail c e t) := by
  have hA := h.allocExtendSwaTail ok
  obtain ⟨hps, hc, ht, hd⟩ := ok
  have hn := c.pageSize_pos
  obtain ⟨k, hk⟩ := rowEnd_tail hn hc.le ht hd
  rcases h.allocExtendSwaTail_counted hps hc.le ht with
    ⟨hp, freeF, freeS, full, swa, tookF, tookS, hr⟩ | ⟨hp, hr⟩
  swap
  · exact .inr ⟨hp, _, hr, refused_self s⟩
  rw [hr] at hA ⊢
  have hlen := e.length_slots hn freeF hc.le
  have hposF : ∀ x ∈ e.slots c.pageSize freeF, 0 < x :=
    (h.placed hc).1.slots_pos hn tookF.enough (h.full_pos tookF)
  have hposS : ∀ y ∈ (Extension.mk 0 t (-1)).slots c.pageSize freeS, 0 < y := by
    refine Placed.slots_pos ⟨Nat.zero_le _, fun hnd => absurd (Nat.dvd_zero _) hnd,
      fun hnd => absurd (Nat.dvd_zero _) hnd⟩ hn ?_ (h.swa_pos tookS)
    simpa [Extension.numNewPages, numPagesOf_zero hn] using tookS.enough
  have hlenS : ((e.slots c.pageSize freeF).drop (e.seqLen - e.prefixLen - t)).length =
      ((Extension.mk 0 t (-1)).slots c.pageSize freeS).length := by
    rw [length_drop, hlen, (Extension.mk 0 t (-1)).length_slots hn freeS (Nat.zero_le _)]
    exact Nat.sub_sub_self ht
  -- written or cleared, the entries of the row are the same
  obtain ⟨V', hrep, hrep', -, -⟩ := tail_row h.core.rep h.core.view hc (h.fresh tookF tookS)
    tookF.enough tookS.enough ht hk
  have hsame (x : Slot) (hx : 0 ≤ x) := (hrep x hx).trans (hrep' x hx).symm
  have hentry (x : Slot) (hx : 0 ≤ x) :
      tailMapping c s.pool.fullToSwaIndexMapping e t freeF freeS x =
        writeAll s.pool.fullToSwaIndexMapping
          ((e.slots c.pageSize freeF).drop (e.seqLen - e.prefixLen - t))
          ((Extension.mk 0 t (-1)).slots c.pageSize freeS) x := by
    unfold tailMapping
    split_ifs
    · exact (hsame x hx).symm
    · rfl
  refine .inl ⟨hp, _, _, rfl, takes_of_took tookF, takes_of_took tookS, fun x hx => ?_,
    fun x hx => ?_⟩
  · have hx0 := hposF x (mem_of_mem_drop hx)
    have hval : 0 < tailMapping c s.pool.fullToSwaIndexMapping e t freeF freeS x := by
      rw [hentry x hx0.le]
      exact hposS _ (writeAll_mem hx hlenS)
    exact ⟨hval, hA.own hx0 hval⟩
  · have hx0 := hposF x (mem_of_mem_take hx)
    exact (hentry x hx0.le).trans ((hsame x hx0.le).trans (if_pos hx))

theorem Inv.allocDecode_atomic {batch : List DecodeReq}
    (ok : Allowed c s (.allocDecode batch))
    (hboth : decodePages c batch ≤ s.pool.fullAttnAllocator.availablePages ↔
      decodePages c batch ≤ s.pool.swaAttnAllocator.availablePages) :
    Atomic s (decodePages c batch) (decodePages c batch) 0 (s.pool.allocDecode c batch) := by
  have hA := h.allocDecode ok hboth.mpr
  obtain ⟨hps, hc, -⟩ := ok
  have hd : ∀ d ∈ batch, 0 < d.seqLen := fun d hm => (hc d hm).1
  have hce : ∀ e ∈ batch.map DecodeReq.toExtension, Continues c s.filled e := by
    intro e he
    obtain ⟨d, hm, rfl⟩ := mem_map.mp he
    exact (hc d hm).2
  have hsum : decodePages c batch =
      ((batch.map DecodeReq.toExtension).map (·.numNewPages c.pageSize)).sum :=
    (sum_numNewPages_decode hps hd).symm
  obtain ⟨freeF, freeS, full, swa, nF, nS, tookF, tookS, hnF, hnS, hr⟩ :=
    h.allocDecode_sides hps batch hd
  rw [hr] at hA ⊢
  by_cases hp : HasPages s (decodePages c batch) (decodePages c batch)
  · rw [if_pos hp] at hA ⊢
    rw [if_pos hp.1] at hnF
    rw [if_pos hp.2] at hnS
    obtain ⟨hlen, hF, hS⟩ := h.batch_pos hce (hnF.trans hsum) (hnS.trans hsum)
    exact .inl ⟨hp, _, _, rfl, hnF ▸ takes_of_took tookF, hnS ▸ takes_of_took tookS,
      hA.mapped rfl (hlen freeF freeS) (hF _ _ tookF) (hS _ _ tookS), by simp⟩
  · rw [if_neg hp]
    rw [if_neg fun hle => hp ⟨hle, hboth.mp hle⟩] at hnF
    rw [if_neg fun hle => hp ⟨hboth.mpr hle, hle⟩] at hnS
    exact .inr ⟨hp, _, rfl, hnF ▸ takes_of_took tookF, hnS ▸ takes_of_took tookS, rfl⟩

end

end SglangRuntime.SwaPool
