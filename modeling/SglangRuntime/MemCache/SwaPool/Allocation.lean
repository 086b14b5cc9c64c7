import SglangRuntime.MemCache.SwaPool.Remap

/-!
# Memory cache — allocation on both sides

Every allocation of the SWA allocator returns, and hands out pages of both sides so that the invariant of
the run is kept.  The assertions on the answers of the two sides hold because the pages were counted
before; `alloc_decode`, which does not count them, needs that the SWA side does not grant what the full
side refuses.
-/

namespace SglangRuntime.SwaPool

open Foundation PagedAllocator List DecodeReq

variable {c : SwaConfig} {s s' : State} {V : TableView} {full a : PagedAllocator} {freeF : List Int}
  {nF n ps t : Nat} {g : PoolConfig} {batch : List Extension} {e : Extension}

structure Inv (c : SwaConfig) (s : State) (V : TableView) : Prop where
  core : Core c s.pool s.filled V
  group : s.pool.isNotInFreeGroup → s.pool.swaFreeGroup = []
  mergedFull : s.pool.fullAttnAllocator.Merged c.full
  mergedSwa : s.pool.swaAttnAllocator.Merged c.swa

/-! ### Allocation -/

/-- An allocation returns, and the invariant holds with what it handed out. -/
def Allocates (c : SwaConfig) (s : State) (r : Option (Option (List Slot) × SwaPool)) : Prop :=
  ∃ out a, r = some (out, a) ∧ ∃ V', Inv c ⟨a, fill c s.filled (out.getD [])⟩ V'

section

variable (h : Inv c s V)
include h

theorem Inv.refused : Allocates c s (some (none, s.pool)) :=
  ⟨none, s.pool, rfl, V, by rw [Option.getD_none, fill_nil]; exact h⟩

section

variable (hF : Took c.full s.pool.fullAttnAllocator full freeF nF)
include hF

/-- Both sides hand out pages. -/
theorem Inv.granted {swa : PagedAllocator} {freeS : List Int}
    {nS : Nat} {mapping : Int → Int} {filled' : Int → Nat}
    (hS : Took c.swa s.pool.swaAttnAllocator swa freeS nS)
    (hgrow : ∃ V', Represents c.pageSize mapping V' ∧ ViewOk c filled' V' ∧
      Growth s.filled V filled' V' (freeF.take nF) (freeS.take nS)) :
    ∃ V', Inv c ⟨{ s.pool with
      fullAttnAllocator := full, swaAttnAllocator := swa, fullToSwaIndexMapping := mapping },
      filled'⟩ V' := by
  obtain ⟨V', hrep, hok, hg⟩ := hgrow
  exact ⟨V', h.core.grow rfl rfl hrep hok hg hF.count hS.count, h.group, hF.merged h.mergedFull,
    hS.merged h.mergedSwa⟩

theorem Inv.fresh {swa : PagedAllocator} {freeS : List Int} {nS : Nat}
    (hS : Took c.swa s.pool.swaAttnAllocator swa freeS nS) : Fresh s.filled V freeF freeS :=
  h.core.fresh hF.sub hS.sub

theorem Inv.nonneg (p : Int)
    (hp : 0 < s.filled p ∨ p ∈ freeF) : 0 ≤ p := by
  refine (Core.nonneg_of_mem (h.core.full_mem p ?_)).le
  refine hp.symm.imp_left fun hp => ?_
  have h₁ := count_pos_iff.mpr hp
  have h₂ := hF.sub p
  unfold fullTotal
  omega

end

end

theorem alloc_isSome (h1 : g.pageSize = 1)
    (hm : a.Merged g) (hle : n ≤ a.availablePages) : ∃ x, a.alloc g n = some x := by
  have hdiv : n / g.pageSize = n := by rw [h1, Nat.div_one]
  have hroom := le_length_sortFor (k := n) hm (Nat.le_refl n) hle
  simp only [PagedAllocator.alloc, hdiv]
  exact ⟨_, if_neg (Nat.not_lt.mpr hroom)⟩

/-- Both sides have the pages. -/
def HasPages (s : State) (nF nS : Nat) : Prop :=
  nF ≤ s.pool.fullAttnAllocator.availablePages ∧ nS ≤ s.pool.swaAttnAllocator.availablePages

instance (s : State) (nF nS : Nat) : Decidable (HasPages s nF nS) :=
  inferInstanceAs (Decidable (_ ∧ _))

/-- A call that counts the pages: each side hands out what it has counted and the new slots are
mapped in order, or nothing happens. -/
def Counted (c : SwaConfig) (s : State) (nF nS : Nat) (outF outS : List Int → List Slot)
    (r : Option (Option (List Slot) × SwaPool)) : Prop :=
  (HasPages s nF nS ∧ ∃ freeF freeS full swa, Took c.full s.pool.fullAttnAllocator full freeF nF ∧
    Took c.swa s.pool.swaAttnAllocator swa freeS nS ∧
    r = some (some (outF freeF), { s.pool with
      fullAttnAllocator := full, swaAttnAllocator := swa,
      fullToSwaIndexMapping :=
        writeAll s.pool.fullToSwaIndexMapping (outF freeF) (outS freeS) })) ∨
    (¬ HasPages s nF nS ∧ r = some (none, s.pool))

theorem Inv.alloc_counted (h : Inv c s V) (h1 : c.pageSize = 1) (needSize : Nat) :
    Counted c s needSize needSize
      (fun free => rowSlots c.pageSize (free.take needSize) 0 (needSize * c.pageSize))
      (fun free => rowSlots c.pageSize (free.take needSize) 0 (needSize * c.pageSize))
      (s.pool.alloc c needSize) := by
  have hdiv : needSize / c.pageSize = needSize := by rw [h1, Nat.div_one]
  unfold SwaPool.alloc
  rw [if_neg (not_not.mpr h1)]
  split_ifs with hf hs
  · exact .inr ⟨fun hp => absurd hp.1 (by omega), rfl⟩
  · exact .inr ⟨fun hp => absurd hp.2 (by omega), rfl⟩
  · obtain ⟨⟨outF, full⟩, hF⟩ := alloc_isSome h1 h.mergedFull (Nat.le_of_not_lt hf)
    obtain ⟨⟨outS, swa⟩, hS⟩ := alloc_isSome h1 h.mergedSwa (Nat.le_of_not_lt hs)
    obtain ⟨freeF, tookF, rfl⟩ := alloc_spec hF
    obtain ⟨freeS, tookS, rfl⟩ := alloc_spec hS
    change Took c.full _ _ _ (needSize / c.pageSize) at tookF
    change Took c.swa _ _ _ (needSize / c.pageSize) at tookS
    rw [hdiv] at tookF tookS
    refine .inl ⟨⟨Nat.le_of_not_lt hf, Nat.le_of_not_lt hs⟩, freeF, freeS, full, swa, tookF, tookS, ?_⟩
    simp only [hF, hS, Option.bind_eq_bind, Option.bind_some]
    simp only [SwaConfig.full, SwaConfig.swa, hdiv]
    rfl

theorem Inv.alloc (h : Inv c s V) (h1 : c.pageSize = 1) (needSize : Nat) :
    Allocates c s (s.pool.alloc c needSize) := by
  have hn := c.pageSize_pos
  rcases h.alloc_counted h1 needSize with ⟨-, freeF, freeS, full, swa, tookF, tookS, hr⟩ | ⟨-, hr⟩
  swap
  · rw [hr]
    exact h.refused
  -- one row of new pages
  have hpages : numPagesOf c.pageSize needSize = needSize := by
    rw [h1, numPagesOf]
    omega
  have hnum : (Extension.mk 0 needSize (-1)).numNewPages c.pageSize = needSize := by
    simp [Extension.numNewPages, numPagesOf_zero hn, hpages]
  have hrow (free : List Int) (hfree : needSize ≤ free.length) :
      rowSlots c.pageSize (free.take needSize) 0 (needSize * c.pageSize) =
        (Extension.mk 0 needSize (-1)).slots c.pageSize free := by
    have := rowSlots_fresh (l := -1) hn (hpages.le.trans hfree)
    rw [hpages] at this
    rw [← this, h1, Nat.mul_one]
  dsimp only at hr
  rw [hr, hrow freeF tookF.enough, hrow freeS tookS.enough]
  refine ⟨_, _, rfl, h.granted tookF tookS ?_⟩
  have hd : c.pageSize ∣ (Extension.mk 0 needSize (-1)).prefixLen := Nat.dvd_zero _
  obtain ⟨V', hrep, hok, hg, -⟩ := extend_row (e := ⟨0, needSize, -1⟩) (l := -1) h.core.rep
    h.core.view ⟨Nat.zero_le _, fun hnd => absurd hd hnd⟩
    (fun p hp => h.nonneg tookF p (.inl hp)) (h.fresh tookF tookS) (fun hnd => absurd hd hnd)
    (by rw [hnum]; exact tookF.enough) (by rw [hnum]; exact tookS.enough)
  rw [hnum] at hg
  exact ⟨V', hrep, hok, hg⟩

/-- The number of pages that `alloc_extend` reckons with is enough. -/
theorem numNewPages_le (hn : 0 < ps) (batch : List Extension)
    (hle : ∀ e ∈ batch, e.prefixLen ≤ e.seqLen) :
    (batch.map (·.numNewPages ps)).sum ≤
      (batch.map fun e => e.seqLen - e.prefixLen).sum / ps + batch.length := by
  induction batch with
  | nil => simp
  | cons e batch ih =>
    have hrest := ih fun e' he' => hle e' (mem_cons_of_mem _ he')
    have hone : e.numNewPages ps ≤ (e.seqLen - e.prefixLen) / ps + 1 := by
      have hlen := hle e mem_cons_self
      obtain ⟨k, hk⟩ := Nat.exists_eq_add_of_le hlen
      have hsum : numPagesOf ps e.seqLen ≤ numPagesOf ps e.prefixLen + (k / ps + 1) := by
        have h₁ := le_numPagesOf_mul hn e.prefixLen
        have h₂ := Nat.div_add_mod' k ps
        have h₃ := Nat.mod_lt k hn
        have h₄ : e.seqLen ≤ (numPagesOf ps e.prefixLen + (k / ps + 1)) * ps := by
          rw [Nat.add_mul, Nat.add_mul]
          omega
        have h₅ := numPagesOf_mono (n := ps) h₄
        rwa [numPagesOf_mul hn] at h₅
      have hdiff : e.seqLen - e.prefixLen = k := by omega
      rw [hdiff]
      exact Nat.sub_le_iff_le_add'.mpr hsum
    have hdiv : (e.seqLen - e.prefixLen) / ps +
        (batch.map fun e => e.seqLen - e.prefixLen).sum / ps ≤ _ := Nat.div_add_div_le_add_div
    simp only [map_cons, sum_cons, length_cons]
    linarith

theorem allocExtend_isSome (hm : a.Merged g) (hle : ∀ e ∈ batch, e.prefixLen ≤ e.seqLen)
    (hroom : (batch.map (·.numNewPages g.pageSize)).sum ≤ a.availablePages) :
    ∃ x, a.allocExtend g batch = some x := by
  have hnum := numNewPages_le g.pageSize_pos batch hle
  have h := le_length_sortFor (k := (batch.map fun e => e.seqLen - e.prefixLen).sum / g.pageSize +
    batch.length + 1) hm (by omega) hroom
  exact ⟨_, if_neg (Nat.not_lt.mpr h)⟩

theorem Inv.allocExtend_counted (h : Inv c s V) (hps : 1 < c.pageSize)
    (hle : ∀ e ∈ batch, e.prefixLen ≤ e.seqLen) :
    Counted c s (batch.map (·.numNewPages c.pageSize)).sum
      (batch.map (·.numNewPages c.pageSize)).sum
      (fun free => (allocExtendKernel c.pageSize batch free).flatten)
      (fun free => (allocExtendKernel c.pageSize
        (batch.map (swaExtension s.pool.fullToSwaIndexMapping)) free).flatten)
      (s.pool.allocExtend c batch) := by
  have hleS : ∀ e ∈ batch.map (swaExtension s.pool.fullToSwaIndexMapping),
      e.prefixLen ≤ e.seqLen := by
    simpa [swaExtension] using hle
  have hsum : ((batch.map (swaExtension s.pool.fullToSwaIndexMapping)).map
      (·.numNewPages c.swa.pageSize)).sum = (batch.map (·.numNewPages c.pageSize)).sum := by
    rw [map_map]
    rfl
  unfold SwaPool.allocExtend
  dsimp only
  split_ifs with hroom <;>
    simp only [newPagesAvailable, Bool.and_eq_true, decide_eq_true_eq] at hroom
  · obtain ⟨⟨outF, full⟩, hF⟩ := allocExtend_isSome h.mergedFull hle hroom.1
    obtain ⟨⟨outS, swa⟩, hS⟩ := allocExtend_isSome h.mergedSwa hleS (by rw [hsum]; exact hroom.2)
    obtain ⟨freeF, tookF, rfl⟩ := allocExtend_spec hF
    obtain ⟨freeS, tookS, rfl⟩ := allocExtend_spec hS
    rw [hsum] at tookS
    refine .inl ⟨hroom, freeF, freeS, full, swa, tookF, tookS, ?_⟩
    simp only [hF, hS, Option.bind_eq_bind, Option.bind_some]
    rfl
  · exact .inr ⟨hroom, rfl⟩

theorem Inv.allocExtend (h : Inv c s V)
    (ok : Allowed c s (.allocExtend batch)) : Allocates c s (s.pool.allocExtend c batch) := by
  obtain ⟨hps, hc, ha⟩ := ok
  rcases h.allocExtend_counted hps fun e he => (hc e he).le with
    ⟨-, freeF, freeS, full, swa, tookF, tookS, hr⟩ | ⟨-, hr⟩
  · rw [hr]
    exact ⟨_, _, rfl, h.granted tookF tookS (extend_batch h.core.rep h.core.view hc ha
      (h.nonneg tookF) (h.fresh tookF tookS) (fun _ _ _ => rfl) tookF.enough tookS.enough)⟩
  · rw [hr]
    exact h.refused

/-- The tail of a row begins at a page boundary of it. -/
theorem rowEnd_tail (hn : 0 < ps) (hle : e.prefixLen ≤ e.seqLen)
    (ht : t ≤ e.seqLen - e.prefixLen) (hd : ps ∣ e.seqLen - t) : ∃ k, rowEnd ps e = k * ps + t := by
  have hdm := Nat.div_add_mod' e.prefixLen ps
  obtain ⟨j, hj⟩ := hd
  have hge : e.prefixLen / ps ≤ j := by
    refine Nat.le_of_mul_le_mul_right ?_ hn
    rw [Nat.mul_comm j]
    omega
  refine ⟨j - e.prefixLen / ps, ?_⟩
  rw [rowEnd, Nat.sub_mul, Nat.mul_comm j]
  have := Nat.mul_le_mul_right ps hge
  omega

/-- The table after a tail has been mapped: the entries of the head are cleared, if there is one. -/
def tailMapping (c : SwaConfig) (m : Int → Int) (e : Extension) (t : Nat) (freeF freeS : List Int) :
    Int → Int :=
  let headLen := e.seqLen - e.prefixLen - t
  let written := writeAll m ((e.slots c.pageSize freeF).drop headLen)
    ((Extension.mk 0 t (-1)).slots c.pageSize freeS)
  if 0 < t ∧ t < e.seqLen - e.prefixLen then
    clearAll written ((e.slots c.pageSize freeF).take headLen)
  else written

theorem Inv.allocExtendSwaTail_counted (h : Inv c s V)
    (hps : 1 < c.pageSize) (hle : e.prefixLen ≤ e.seqLen) (ht : t ≤ e.seqLen - e.prefixLen) :
    (HasPages s (e.numNewPages c.pageSize) (numPagesOf c.pageSize t) ∧ ∃ freeF freeS full swa,
      Took c.full s.pool.fullAttnAllocator full freeF (e.numNewPages c.pageSize) ∧
      Took c.swa s.pool.swaAttnAllocator swa freeS (numPagesOf c.pageSize t) ∧
      s.pool.allocExtendSwaTail c e t = some (some (e.slots c.pageSize freeF), { s.pool with
        fullAttnAllocator := full, swaAttnAllocator := swa,
        fullToSwaIndexMapping :=
          tailMapping c s.pool.fullToSwaIndexMapping e t freeF freeS })) ∨
      (¬ HasPages s (e.numNewPages c.pageSize) (numPagesOf c.pageSize t) ∧
        s.pool.allocExtendSwaTail c e t = some (none, s.pool)) := by
  have hn := c.pageSize_pos
  rw [SwaPool.allocExtendSwaTail]
  rw [if_neg (not_not.mpr ⟨hps, ht⟩)]
  by_cases hroom : HasPages s (e.numNewPages c.pageSize) (numPagesOf c.pageSize t)
  swap
  · exact .inr ⟨hroom, if_neg (by simpa [newPagesAvailable] using (show ¬ (_ ∧ _) from hroom))⟩
  rw [if_pos (by simpa [newPagesAvailable] using (show _ ∧ _ from hroom))]
  have hone : ([e].map (·.numNewPages c.full.pageSize)).sum = e.numNewPages c.pageSize := by
    simp [SwaConfig.full]
  have honeS : ([Extension.mk 0 t (-1)].map (·.numNewPages c.swa.pageSize)).sum =
      numPagesOf c.pageSize t := by
    change ([Extension.mk 0 t (-1)].map (·.numNewPages c.pageSize)).sum = _
    simp [Extension.numNewPages, numPagesOf_zero hn]
  have hleF : ∀ e' ∈ [e], e'.prefixLen ≤ e'.seqLen := fun e' he' => mem_singleton.mp he' ▸ hle
  have hleS : ∀ e' ∈ [Extension.mk 0 t (-1)], e'.prefixLen ≤ e'.seqLen := fun e' he' =>
    mem_singleton.mp he' ▸ Nat.zero_le _
  obtain ⟨⟨outF, full⟩, hF⟩ := allocExtend_isSome h.mergedFull hleF (hone ▸ hroom.1)
  obtain ⟨⟨outS, swa⟩, hS⟩ := allocExtend_isSome h.mergedSwa hleS (honeS ▸ hroom.2)
  obtain ⟨freeF, tookF, rfl⟩ := allocExtend_spec hF
  obtain ⟨freeS, tookS, rfl⟩ := allocExtend_spec hS
  rw [honeS] at tookS
  have hkerF : (allocExtendKernel c.full.pageSize [e] freeF).flatten = e.slots c.pageSize freeF := by
    simp [allocExtendKernel, SwaConfig.full]
  have hkerS : (allocExtendKernel c.swa.pageSize [Extension.mk 0 t (-1)] freeS).flatten =
      (Extension.mk 0 t (-1)).slots c.pageSize freeS := by
    simp [allocExtendKernel, SwaConfig.swa]
  have hlen := e.length_slots hn freeF hle
  by_cases h0 : t = 0
  · -- no tail: nothing is written, and the SWA side is not asked
    subst h0
    refine .inl ⟨hroom, freeF, [], full, s.pool.swaAttnAllocator, tookF, ?_, ?_⟩
    · rw [numPagesOf_zero hn]
      exact ⟨Nat.le_refl 0, fun p => by simp, fun p => by simp, id⟩
    have hwritten : tailMapping c s.pool.fullToSwaIndexMapping e 0 freeF [] =
        s.pool.fullToSwaIndexMapping := by
      unfold tailMapping
      rw [if_neg (by omega), Nat.sub_zero, ← hlen, drop_length]
      rfl
    rw [hwritten, hF]
    simp only [Option.bind_eq_bind, Option.bind_some, if_true, hkerF]
  · refine .inl ⟨hroom, freeF, freeS, full, swa, tookF, tookS, ?_⟩
    simp only [hF, hS, Option.bind_eq_bind, Option.bind_some, if_neg h0, hkerF, hkerS, hlen,
      tailMapping, Nat.pos_of_ne_zero h0, true_and]
    rfl

theorem Inv.allocExtendSwaTail (h : Inv c s V) (ok : Allowed c s (.allocExtendSwaTail e t)) :
    Allocates c s (s.pool.allocExtendSwaTail c e t) := by
  obtain ⟨hps, hc, ht, hd⟩ := ok
  obtain ⟨k, hk⟩ := rowEnd_tail c.pageSize_pos hc.le ht hd
  rcases h.allocExtendSwaTail_counted hps hc.le ht with
    ⟨-, freeF, freeS, full, swa, tookF, tookS, hr⟩ | ⟨-, hr⟩
  · obtain ⟨V', hrep, hrep', hok, hg⟩ := tail_row h.core.rep h.core.view hc (h.fresh tookF tookS)
      tookF.enough tookS.enough ht hk
    rw [hr]
    refine ⟨_, _, rfl, h.granted tookF tookS ⟨V', ?_, hok, hg⟩⟩
    unfold tailMapping
    split_ifs
    · exact hrep'
    · exact hrep
  · rw [hr]
    exact h.refused

/-- The number of pages that a decode batch needs. -/
def decodePages (c : SwaConfig) (batch : List DecodeReq) : Nat :=
  (batch.filter fun d => d.seqLen % c.pageSize == 1).length

/-- One side of `alloc_decode`. -/
theorem settle_decode {b : PagedAllocator} (hm : b.Merged g) (batch : List DecodeReq) {k : Nat}
    (hn : (batch.filter fun d => d.seqLen % g.pageSize == 1).length = n) (hk : batch.length = k) :
    (n ≤ b.availablePages ∧ ∃ free b', Took g b b' free n ∧
      settle (b.sortFor g k) (b.allocDecode g batch) =
        (some (allocDecodeKernel g.pageSize batch free), b')) ∨
      (b.availablePages < n ∧ ∃ b', Took g b b' [] 0 ∧
        settle (b.sortFor g k) (b.allocDecode g batch) = (none, b')) := by
  subst hn hk
  cases hb : b.allocDecode g batch with
  | none =>
    refine .inr ⟨?_, _, took_nothing _ _, rfl⟩
    by_contra hle
    have hroom := le_length_sortFor hm (length_filter_le _ batch) (Nat.le_of_not_lt hle)
    exact absurd (allocDecode_eq_none.mp hb) (Nat.not_lt.mpr hroom)
  | some r =>
    obtain ⟨out, b'⟩ := r
    obtain ⟨free, took, rfl⟩ := allocDecode_spec hb
    refine .inl ⟨?_, free, b', took, rfl⟩
    have hroom : ¬ b.allocDecode g batch = none := by simp [hb]
    rw [allocDecode_eq_none, Nat.not_lt] at hroom
    exact hroom.trans (length_sortFor_le ..)

/-- The batch that the SWA side is given. -/
def swaBatch (s : State) (batch : List DecodeReq) : List DecodeReq :=
  batch.map fun d => { d with lastLoc := s.pool.fullToSwaIndexMapping d.lastLoc }

theorem toExtension_swaBatch (s : State) (batch : List DecodeReq) :
    (swaBatch s batch).map toExtension =
      (batch.map toExtension).map (swaExtension s.pool.fullToSwaIndexMapping) := by
  rw [swaBatch, map_map, map_map]
  rfl

theorem decodePages_swaBatch (s : State) (batch : List DecodeReq) :
    decodePages c (swaBatch s batch) = decodePages c batch := by
  rw [decodePages, swaBatch, filter_map, length_map]
  rfl

theorem decodeKernel_eq (hps : 1 < n) {batch : List DecodeReq}
    (hd : ∀ d ∈ batch, 0 < d.seqLen) (free : List Int) : allocDecodeKernel n batch free =
      (allocExtendKernel n (batch.map toExtension) free).flatten := by
  rw [← allocDecodeKernel_eq hps hd]
  exact (flatMap_singleton' _).symm

/-- The answers of the two sides of `alloc_decode`. -/
theorem Inv.allocDecode_sides (h : Inv c s V) (hps : 1 < c.pageSize) (batch : List DecodeReq)
    (hd : ∀ d ∈ batch, 0 < d.seqLen) : ∃ freeF freeS full swa nF nS,
      Took c.full s.pool.fullAttnAllocator full freeF nF ∧
      Took c.swa s.pool.swaAttnAllocator swa freeS nS ∧
      (nF = if decodePages c batch ≤ s.pool.fullAttnAllocator.availablePages then
        decodePages c batch else 0) ∧
      (nS = if decodePages c batch ≤ s.pool.swaAttnAllocator.availablePages then
        decodePages c batch else 0) ∧
      s.pool.allocDecode c batch =
        if HasPages s (decodePages c batch) (decodePages c batch) then
          some (some (allocExtendKernel c.pageSize (batch.map toExtension) freeF).flatten,
            { s.pool with
              fullAttnAllocator := full, swaAttnAllocator := swa,
              fullToSwaIndexMapping := writeAll s.pool.fullToSwaIndexMapping
                (allocExtendKernel c.pageSize (batch.map toExtension) freeF).flatten
                (allocExtendKernel c.pageSize ((batch.map toExtension).map
                  (swaExtension s.pool.fullToSwaIndexMapping)) freeS).flatten })
        else some (none, { s.pool with fullAttnAllocator := full, swaAttnAllocator := swa }) := by
  have hdS : ∀ d ∈ swaBatch s batch, 0 < d.seqLen := by simpa [swaBatch] using hd
  have hbatch : (batch.map fun d => { d with lastLoc := s.pool.fullToSwaIndexMapping d.lastLoc }) =
    swaBatch s batch := rfl
  rw [SwaPool.allocDecode, if_neg (not_not.mpr hps), hbatch, ← toExtension_swaBatch]
  dsimp only
  rcases settle_decode (n := decodePages c batch) h.mergedFull batch rfl rfl with
    ⟨hF, freeF, full, tookF, eF⟩ | ⟨hF, full, tookF, eF⟩ <;>
  rcases settle_decode (n := decodePages c batch) (k := batch.length) h.mergedSwa (swaBatch s batch)
      (decodePages_swaBatch s batch) (by simp [swaBatch]) with
    ⟨hS, freeS, swa, tookS, eS⟩ | ⟨hS, swa, tookS, eS⟩ <;>
  rw [eF, eS]
  · refine ⟨freeF, freeS, full, swa, _, _, tookF, tookS, (if_pos hF).symm, (if_pos hS).symm, ?_⟩
    rw [if_pos ⟨hF, hS⟩, ← decodeKernel_eq hps hd, ← decodeKernel_eq hps hdS]
    rfl
  · exact ⟨freeF, [], full, swa, _, _, tookF, tookS, (if_pos hF).symm,
      (if_neg (Nat.not_le.mpr hS)).symm, (if_neg fun hp => absurd hp.2 (Nat.not_le.mpr hS)).symm⟩
  · exact ⟨[], freeS, full, swa, _, _, tookF, tookS, (if_neg (Nat.not_le.mpr hF)).symm,
      (if_pos hS).symm, (if_neg fun hp => absurd hp.1 (Nat.not_le.mpr hF)).symm⟩
  · exact ⟨[], [], full, swa, _, _, tookF, tookS, (if_neg (Nat.not_le.mpr hF)).symm,
      (if_neg (Nat.not_le.mpr hS)).symm, (if_neg fun hp => absurd hp.1 (Nat.not_le.mpr hF)).symm⟩

/-- **Decoding.**  A batch that the full side refuses takes nothing from the SWA side. -/
theorem Inv.allocDecode (h : Inv c s V) {batch : List DecodeReq}
    (ok : Allowed c s (.allocDecode batch)) (hboth : DecodesBoth c s (.allocDecode batch)) :
    Allocates c s (s.pool.allocDecode c batch) := by
  obtain ⟨hps, hc, ha⟩ := ok
  have hd : ∀ d ∈ batch, 0 < d.seqLen := fun d hm => (hc d hm).1
  have hsum : ((batch.map toExtension).map (·.numNewPages c.pageSize)).sum =
    decodePages c batch := sum_numNewPages_decode hps hd
  obtain ⟨freeF, freeS, full, swa, nF, nS, tookF, tookS, hF, hS, hr⟩ :=
    h.allocDecode_sides hps batch hd
  rw [hr]
  split_ifs with hp
  · rw [if_pos hp.1, ← hsum] at hF
    rw [if_pos hp.2, ← hsum] at hS
    subst hF hS
    refine ⟨_, _, rfl, h.granted tookF tookS (extend_batch h.core.rep h.core.view (fun e he => ?_) ha
      (h.nonneg tookF) (h.fresh tookF tookS) (fun _ _ _ => rfl) tookF.enough tookS.enough)⟩
    obtain ⟨d, hm, rfl⟩ := mem_map.mp he
    exact (hc d hm).2
  · -- full pages may be taken and lost; no entry refers to them
    have hnS : nS = 0 := hS.trans (if_neg fun hle => hp ⟨hboth hle, hle⟩)
    subst hnS
    refine ⟨none, _, rfl, h.granted tookF tookS ⟨V, h.core.rep, ?_, ?_⟩⟩
    · rw [Option.getD_none, fill_nil]
      exact h.core.view
    · rw [Option.getD_none, fill_nil]
      exact ⟨fun q => by simp, fun _ _ h0 => ⟨h0, rfl⟩, fun _ hp => hp⟩

end SglangRuntime.SwaPool
