import SglangRuntime.MemCache.SwaPool.Release

/-!
# Memory cache — the full-to-SWA mapping in every run

Whatever the calls and however frees of both kinds are mixed in groups, the entries of the mapping are
what the SWA side has handed out (`run_mapping`): they are injective, and the SWA pages that they lead to
are those in no free list and not in the pending group.  The statement is about pages, since the slots of
a page behind the end of a row have no entry and are not free; and decode batches that the full side
refuses must not be granted by the SWA side, whose pages would be lost (`allocDecode_loses_page`).
-/

namespace SglangRuntime.SwaPool

open Foundation PagedAllocator List PagedPool Option Int

variable {c : SwaConfig} {s s' : State} {V : TableView}

/-- **Every allowed event** returns and keeps the invariant. -/
theorem Inv.exec (h : Inv c s V) {e : Event} (ok : Allowed c s e) (he : DecodesBoth c s e) :
    ∃ s', s.exec c e = some s' ∧ ∃ V', Inv c s' V' := by
  have halloc {r : Option (Option (List Slot) × SwaPool)} (hr : Allocates c s r)
      (hexec : ∀ out a, r = some (out, a) → s.exec c e = some ⟨a, fill c s.filled (out.getD [])⟩) :
      ∃ s', s.exec c e = some s' ∧ ∃ V', Inv c s' V' := by
    obtain ⟨out, a, hout, hV⟩ := hr
    exact ⟨_, hexec out a hout, hV⟩
  cases e with
  | alloc needSize => exact halloc (h.alloc ok needSize) fun _ _ e => by rw [State.exec, e]; rfl
  | allocExtend batch => exact halloc (h.allocExtend ok) fun _ _ e => by rw [State.exec, e]; rfl
  | allocExtendSwaTail e t =>
    exact halloc (h.allocExtendSwaTail ok) fun _ _ e => by rw [State.exec, e]; rfl
  | allocDecode batch => exact halloc (h.allocDecode ok he) fun _ _ e => by rw [State.exec, e]; rfl
  | free idx =>
    obtain ⟨a, ha, hV⟩ := h.free ok
    exact ⟨_, by rw [State.exec, ha]; rfl, hV⟩
  | freeSwa idx => exact ⟨_, rfl, h.freeSwa ok⟩
  | loadBack fullIndices => exact ⟨_, rfl, h.loadBack ok⟩
  | recover kept incoming => exact ⟨_, rfl, h.recover ok⟩
  | freeGroupBegin => exact ⟨_, rfl, V, h.freeGroupBegin ok⟩
  | freeGroupEnd =>
    obtain ⟨a, ha, hV⟩ := h.freeGroupEnd ok
    exact ⟨_, by rw [State.exec, ha]; rfl, hV⟩

theorem Inv.init (c : SwaConfig) : Inv c (State.init c) ⟨fun _ => 0, fun _ => 0⟩ := by
  have hclear : ∀ (g : PoolConfig) (p : Int),
      (PagedAllocator.clear g).count p = (allPages g).count p := by
    intro g p
    simp [PagedAllocator.count, allPages, PagedAllocator.clear]
  have hfull : ∀ p, fullTotal c (SwaPool.clear c) p = (allPages c.full).count p := by
    intro p
    simp [fullTotal, SwaPool.clear, pendingFull, hclear]
  have hswa : ∀ q, swaTotal c (SwaPool.clear c) q = (allPages c.swa).count q := by
    intro q
    simp [swaTotal, SwaPool.clear, pendingSwa, hclear]
  have hone : ∀ (g : PoolConfig) (p : Int), (allPages g).count p ≤ 1 := fun g p =>
    nodup_iff_count_le_one.mp (nodup_allPages g) p
  have hnone : ∀ q, ¬ TableView.Owns ⟨fun _ => 0, fun _ => 0⟩ q := by
    rintro q ⟨p, hp, -⟩
    exact Nat.lt_irrefl 0 hp
  refine ⟨⟨?_, ⟨fun p p' hp => absurd hp (Nat.lt_irrefl 0), fun p => Nat.zero_le _,
    fun p => Nat.zero_le _, fun p hp => absurd hp (Nat.lt_irrefl 0)⟩, fun p => ?_, fun p hp => ?_,
    fun p hp => absurd hp (Nat.lt_irrefl 0), fun p hp => absurd hp (Nat.lt_irrefl 0), fun q => ?_,
    fun q => ?_, fun q hq => absurd hq (hnone q)⟩, fun _ => rfl, fun _ => rfl, fun _ => rfl⟩
  · intro x hx
    have hne : x ≠ -1 := by omega
    have hmod : ¬ x % (c.pageSize : Int) < ((0 : Nat) : Int) := by
      have := emod_nonneg x (show (c.pageSize : Int) ≠ 0 by have := c.pageSize_pos; omega)
      omega
    rw [if_neg hmod]
    exact if_neg hne
  · exact (hfull p).le.trans (hone _ p)
  · rcases hp with hp | hp
    · exact count_pos_iff.mp ((hfull p) ▸ hp)
    · exact absurd hp (Nat.lt_irrefl 0)
  · exact (hswa q).le.trans (hone _ q)
  · change 0 < swaTotal c (SwaPool.clear c) q ∨ _ ↔ _
    rw [hswa, or_iff_left (hnone q), count_pos_iff]

theorem Inv.run (h : Run c (DecodesBoth c) s) : ∃ V, Inv c s V := by
  induction h with
  | init => exact ⟨_, Inv.init c⟩
  | step _ ok he hx ih =>
    obtain ⟨V, hi⟩ := ih
    obtain ⟨s', hx', hV⟩ := hi.exec ok he
    rw [hx] at hx'
    cases hx'
    exact hV

/-- A request may begin. -/
theorem allowed_first {c : SwaConfig} {s : State} (hps : 1 < c.pageSize) (n : Nat) :
    Allowed c s (.allocExtend [⟨0, n, -1⟩]) := by
  refine ⟨hps, fun e he => ?_, pairwise_singleton _ _⟩
  rw [mem_singleton.mp he]
  exact ⟨Nat.zero_le n, fun h => absurd (Nat.dvd_zero _) h⟩

end SglangRuntime.SwaPool
