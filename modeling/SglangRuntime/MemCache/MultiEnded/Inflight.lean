import SglangRuntime.MemCache.MultiEnded.Compaction

/-!
# Memory cache — compaction beside a running forward

A forward writes the physical pages that its `out_cache_loc` has when it is launched, until its event
fires.  The allocator keeps only the event and the virtual locations, and a flush resolves them anew
(`_materialize_inflight_write_set`).  `Overlap` is a sub-pool with the forwards in flight beside it.

* `flush_raceFree`: no non-urgent flush reads or writes a page that a forward in flight writes, as
  long as no such page is freed and the only forward in flight is the one in the slot.
* `flush_into_written_page`: a page that is freed while it is written becomes a hole, and the next
  flush copies a live page into it.
-/

namespace SglangRuntime.MultiEnded

open Foundation MultiEndedAllocator List Option MultiEndedAllocator

/-- A forward in flight: its event and the physical pages it writes. -/
abbrev Flight := Event × List Nat

structure Overlap where
  s : MultiEndedAllocator
  flights : List Flight

/-- What can happen to a sub-pool.  The peer of an allocation is arbitrary, since only the peer is
changed by its own operations. -/
inductive Act where
  /-- `run_batch` launches a forward. -/
  | launch (forwardDone : Event) (outCacheLoc : List Nat)
  /-- The event of a forward fires. -/
  | fire (event : Event)
  | alloc (peer : Peer) (timing : Timing) (needSize : Nat)
  | allocPaged (peer : Peer) (timing : Timing) (numNewPages lookAhead : Nat)
  | allocWithVirtual (peer : Peer) (virtualPages : List Nat)
  | free (freeIndex : List Nat)
  | freeGroupBegin
  | freeGroupEnd
  | flush (timing : Timing) (urgent : Bool)
  | flushOpportunistic (timing : Timing)
  | maybeDrainPendingReuse (timing : Timing)

namespace Overlap

variable (c : AllocConfig)

/-- The pages of virtual locations; a location that is not bound goes to the padding sink. -/
def resolve (s : MultiEndedAllocator) (outCacheLoc : List Nat) : List Nat :=
  outCacheLoc.map fun t => (s.virtualToPhysical (t / c.pageSize)).getD 0

/-- An urgent flush with holes waits for the latest forward, and with it for all before it. -/
def Settles (s : MultiEndedAllocator) (timing : Timing) (urgent : Bool) : Prop :=
  urgent ∧ timing.moveGate ∧ (s.prepareFlush c timing true).freePhysPages ≠ [] ∧
    s.latestForwardDoneEvent.isSome

instance (s : MultiEndedAllocator) (timing : Timing) (urgent : Bool) :
    Decidable (Settles c s timing urgent) :=
  inferInstanceAs (Decidable (_ ∧ _ ∧ _ ∧ _))

section

variable (w : Overlap)

/-- The forwards that are still in flight when a flush looks at their events. -/
def inFlight (timing : Timing) : List Flight :=
  w.flights.filter fun f => !timing.firedAtWalk f.1

def exec : Act → Option Overlap
  | .launch e ocl =>
    some ⟨(w.s.setLatestForwardDoneEvent (some e)).setInflightForward e ocl,
      (e, resolve c w.s ocl) :: w.flights⟩
  | .fire e => some ⟨w.s, w.flights.filter fun f => f.1 ≠ e⟩
  | .alloc peer timing n => (w.s.alloc c peer timing n).map fun r => ⟨r.2.1, w.flights⟩
  | .allocPaged peer timing num look =>
    (w.s.allocPaged c peer timing num look).map fun r => ⟨r.2.1, w.flights⟩
  | .allocWithVirtual peer vs => (w.s.allocWithVirtual c peer vs).map (⟨·, w.flights⟩)
  | .free tokens => (w.s.free c tokens).map (⟨·, w.flights⟩)
  | .freeGroupBegin => some ⟨w.s.freeGroupBegin, w.flights⟩
  | .freeGroupEnd => (w.s.freeGroupEnd c).map (⟨·, w.flights⟩)
  | .flush timing urgent =>
    (w.s.flush c timing urgent).map
      (⟨·, if Settles c w.s timing urgent then [] else w.inFlight timing⟩)
  | .flushOpportunistic timing =>
    (w.s.flushOpportunistic c timing).map (⟨·, w.inFlight timing⟩)
  | .maybeDrainPendingReuse timing =>
    some ⟨w.s.drainPendingReuse c timing.firedAtDrain false, w.flights⟩

/-- What the callers owe.  Every forward has an event of its own. -/
def Owed : Act → Prop
  | .launch e _ => ∀ f ∈ w.flights, f.1 ≠ e
  | .alloc peer _ _ | .allocPaged peer _ _ _ => PeerInv peer
  | .allocWithVirtual _ vs =>
    c.isIdOwner = false ∧ vs.Nodup ∧ ∀ v ∈ vs, w.s.virtualToPhysical v = none
  | .free tokens => w.s.isNotInFreeGroup → Freeable c w.s tokens
  | .freeGroupEnd => Freeable c w.s w.s.freeGroup
  | _ => True

/-- No forward in flight writes a page of these tokens. -/
def Unwritten (tokens : List Nat) : Prop :=
  ∀ v ∈ tokenPages c tokens, ∀ f ∈ w.flights, ∀ p ∈ f.2, w.s.virtualToPhysical v ≠ some p

/-- The forwards in flight are the one that the allocator knows of. -/
def InSlot (timing : Timing) : Prop :=
  ∀ f ∈ w.inFlight timing, w.s.inflightForward.map Prod.fst = some f.1

/-- The steps that keep compaction out of the way of the forwards. -/
def Kept : Act → Prop
  | .free tokens => w.s.isNotInFreeGroup → w.Unwritten c tokens
  | .freeGroupEnd => w.Unwritten c w.s.freeGroup
  | .flush timing urgent =>
    urgent = false → w.InSlot timing ∧ ¬ Overwrites c w.s timing
  | .flushOpportunistic timing => w.InSlot timing ∧ ¬ Overwrites c w.s timing
  | _ => True

end

/-- Runs from the empty sub-pool. -/
inductive Run (ok : Overlap → Act → Prop) : Overlap → Prop
  | refl : Run ok ⟨.clear c, []⟩
  | tail {w w' : Overlap} {a : Act} : Run ok w → w.Owed c a → ok w a → w.exec c a = some w' →
      Run ok w'

/-- No data is moved out of, or into, a page that a forward in flight writes. -/
def RaceFree (w : Overlap) (timing : Timing) : Prop :=
  ∀ m ∈ w.s.flushBatch c timing false, ∀ f ∈ w.inFlight timing, m.1 ∉ f.2 ∧ m.2 ∉ f.2

end Overlap

/-! ### The pages that a flush touches -/

namespace MultiEndedAllocator

variable {c : AllocConfig} {s s' : MultiEndedAllocator} {peer peer' : Peer} {n : Nat}
  {S : Nat → Prop} {timing : Timing} {urgent : Bool}

theorem walk_avoids {writeSet : List Nat} {moveCap : Option Nat} (dsts : List Nat)
    (cursor : Option Nat) (holes : List Nat) (n : Nat) :
    ∀ src ∈ (s.walk c writeSet moveCap dsts cursor holes n).map Prod.fst, src ∉ writeSet := by
  induction dsts generalizing cursor holes n with
  | nil => simp [walk]
  | cons dst dsts ih =>
    rw [walk]
    split
    · simp
    next src holes' _ =>
    split_ifs with hw ho hcap
    · simp
    · simp
    · simpa using hw
    · intro q hq
      rcases mem_cons.mp hq with rfl | hq
      · exact hw
      · exact ih _ _ _ q hq

/-- The sources of a non-urgent flush are pages of the band that the forward in the slot does not
write. -/
theorem Inv.flushBatch_src (h : Inv c s) (timing : Timing) :
    ∀ src ∈ (s.flushBatch c timing false).map Prod.fst,
      src ≠ 0 ∧ src ∉ s.inflightWriteSet c timing.firedAtWalk := by
  unfold flushBatch
  split_ifs
  · simp
  obtain ⟨hprep, hsorted⟩ := h.prepareFlush timing false
  obtain ⟨-, hslot, hv, -⟩ := prepareFlush_frame (c := c) s timing false
  have hset : (s.prepareFlush c timing false).inflightWriteSet c timing.firedAtWalk =
      s.inflightWriteSet c timing.firedAtWalk := by
    unfold inflightWriteSet
    rw [hslot, hv]
  rw [← hset]
  set s₁ := s.prepareFlush c timing false
  intro src hsrc
  have hw : Walked c _ _ _ _ (s₁.flushMoves c timing false) := walk_outward hsorted _ _
  refine ⟨?_, walk_avoids _ _ _ _ src hsrc⟩
  have hband := (AllocConfig.inFrom_edge hprep.classes.ok).mp (hw.live src hsrc).1
  have := c.minPageIndex_pos
  unfold AllocConfig.InBand at hband
  rintro rfl
  cases hd : c.growDirection <;> simp only [hd] at hband <;> omega

/-! ### What the operations keep -/

/-- The forward that the allocator knows of, and the pages of `S`, stay. -/
structure Stays (S : Nat → Prop) (s s' : MultiEndedAllocator) : Prop where
  slot : s'.inflightForward = s.inflightForward
  latest : s'.latestForwardDoneEvent = s.latestForwardDoneEvent
  bound : ∀ v p, S p → s.virtualToPhysical v = some p → s'.virtualToPhysical v = some p

theorem Stays.refl (S : Nat → Prop) (s : MultiEndedAllocator) : Stays S s s :=
  ⟨rfl, rfl, fun _ _ _ h => h⟩

theorem Stays.allocBind (S : Nat → Prop)
    (hc : Classes c s.watermark s.physicalToVirtual (s.freePhysPages ++ s.pendingPages))
    {vs : List Nat} (hvs : ∀ v ∈ vs, s.virtualToPhysical v = none)
    (ha : s.allocBindFastOrSlow c peer vs n = some s') : Stays S s s' := by
  rcases Nat.eq_zero_or_pos n with rfl | hpos
  · cases ha
    exact .refl S s
  obtain ⟨phys, wm', free', -, rfl⟩ := allocBind_spec hc hpos ha
  refine ⟨rfl, rfl, fun v p _ hv => ?_⟩
  have hnot : v ∉ vs := fun hm => by simp [hvs v hm] at hv
  exact (scatter_of_notMem hnot).trans hv

theorem Inv.free_unbound (h : Inv c s) (ho : c.isIdOwner) {v : Nat}
    (hv : v ∈ s.freeVirtualIds.take n) : s.virtualToPhysical v = none :=
  ((h.ids ho).mem_iff v |>.mp (mem_of_mem_take hv)).2.2

theorem Stays.allocates (S : Nat → Prop) (h : Inv c s) (ha : Allocates c s peer s' peer') :
    Stays S s s' := by
  obtain ⟨-, -, n, -, rfl | ⟨-, ho, ids, s₁, hs₁, rfl⟩⟩ := ha
  · exact .refl S _
  · obtain ⟨h₁, h₂, h₃⟩ := Stays.allocBind S (s := { s with freeVirtualIds := ids }) h.classes
      (fun v hv => h.free_unbound ho hv) hs₁
    exact ⟨h₁, h₂, h₃⟩

theorem Stays.free {tokens : List Nat}
    (hS : s.isNotInFreeGroup → ∀ v ∈ tokenPages c tokens, ∀ p, S p →
      s.virtualToPhysical v ≠ some p) (ha : s.free c tokens = some s') : Stays S s s' := by
  rw [MultiEndedAllocator.free] at ha
  split_ifs at ha with hnil hgroup
  · cases ha
    exact .refl S s
  · obtain ⟨ps, -, rfl⟩ := map_eq_some_iff.mp ha
    refine ⟨rfl, rfl, fun v p hp hv => ?_⟩
    have hnot : v ∉ tokenPages c tokens := fun hm => hS hgroup v hm p hp hv
    exact wipe_eq_some_iff.mpr ⟨hnot, hv⟩
  · cases ha
    exact ⟨rfl, rfl, fun _ _ _ h => h⟩

/-- A flush that reads no page of `S` leaves their bindings. -/
theorem Inv.flush_bound (h : Inv c s)
    (hsrc : ∀ src ∈ (s.flushBatch c timing urgent).map Prod.fst, ¬ S src)
    (ha : s.flush c timing urgent = some s') :
    ∀ v p, S p → s.virtualToPhysical v = some p → s'.virtualToPhysical v = some p := by
  obtain ⟨⟨vs, hg⟩, -⟩ := flushBatch_spec h timing urgent
  obtain ⟨s'', ha', hv'⟩ := flush_virtualToPhysical hg
  cases ha.symm.trans ha'
  intro v p hp hv
  have hnot : v ∉ vs := by
    intro hm
    obtain ⟨q, hq, hqv⟩ := exists_of_mem_gather hg hm
    have : p = q := (Option.some.inj (((h.inverse v q).mpr hqv).symm.trans hv)).symm
    exact hsrc q hq (this ▸ hp)
  rw [hv', scatter_of_notMem hnot]
  exact hv

theorem commitMoveBatch_forward {moves : List (Nat × Nat)} {latest : Option Event}
    {fired : Event → Bool} {released : List Nat}
    (h : s.commitMoveBatch moves latest fired = some (s', released)) :
    s'.latestForwardDoneEvent = s.latestForwardDoneEvent ∧
      s'.inflightForward = s.inflightForward := by
  rw [commitMoveBatch] at h
  split_ifs at h
  · cases h
    exact ⟨rfl, rfl⟩
  obtain ⟨vs, -, h⟩ := map_eq_some_iff.mp h
  rcases hl : latest.filter fun e => !fired e with - | e
  all_goals
    rw [hl] at h
    cases h
    exact ⟨rfl, rfl⟩

/-- A flush forgets the forward in the slot only after it has waited for it or seen its event. -/
theorem flush_forward (ha : s.flush c timing urgent = some s') :
    s'.latestForwardDoneEvent = s.latestForwardDoneEvent ∧
      (s'.inflightForward = s.inflightForward ∨ s'.inflightForward = none ∧
        (Overlap.Settles c s timing urgent ∨
          ∃ e ocl, s.inflightForward = some (e, ocl) ∧ timing.firedAtWalk e)) := by
  rw [flush] at ha
  split_ifs at ha with hgate
  · cases ha
    exact ⟨rfl, .inl rfl⟩
  obtain ⟨hlatest, hslot, -⟩ := prepareFlush_frame (c := c) s timing urgent
  by_cases hholes : (urgent && decide ((s.prepareFlush c timing urgent).freePhysPages ≠ []))
  · rw [if_pos hholes] at ha
    obtain ⟨⟨s₁, released⟩, hc, rfl⟩ := map_eq_some_iff.mp ha
    obtain ⟨h₁, h₂⟩ := commitMoveBatch_forward hc
    rw [Bool.and_eq_true, decide_eq_true_iff] at hholes
    obtain ⟨rfl, hholes⟩ := hholes
    by_cases hsome : (s.prepareFlush c timing true).latestForwardDoneEvent.isSome
    · rw [if_pos hsome] at h₁ h₂
      rw [hlatest] at hsome
      exact ⟨h₁.trans hlatest, .inr ⟨h₂, .inl ⟨rfl, by simpa using hgate, hholes, hsome⟩⟩⟩
    · rw [if_neg hsome] at h₁ h₂
      exact ⟨h₁.trans hlatest, .inl (h₂.trans hslot)⟩
  · rw [if_neg hholes] at ha
    obtain ⟨⟨s₁, released⟩, hc, rfl⟩ := map_eq_some_iff.mp ha
    obtain ⟨h₁, h₂⟩ := commitMoveBatch_forward hc
    split_ifs at h₁ h₂
    · refine ⟨h₁.trans hlatest, ?_⟩
      have hfilter : s₁.inflightForward =
          s.inflightForward.filter fun f => !timing.firedAtWalk f.1 :=
        h₂.trans (by rw [dropFired, hslot])
      simp only [partialPack, hfilter]
      rcases hf : s.inflightForward with - | ⟨e, ocl⟩
      · exact .inl rfl
      · cases hfired : timing.firedAtWalk e with
        | false => exact .inl (by simp [hfired])
        | true => exact .inr ⟨by simp [hfired], .inr ⟨e, ocl, rfl, hfired⟩⟩
    · exact ⟨h₁.trans hlatest, .inl (h₂.trans hslot)⟩

end MultiEndedAllocator

/-! ### The forward in the slot is tracked -/

namespace Overlap

variable {c : AllocConfig} {w w' : Overlap}

/-- The pages of the forward in the slot are those its locations have now. -/
structure Tracked (c : AllocConfig) (w : Overlap) : Prop where
  inv : Inv c w.s
  latest : w.s.inflightForward.isSome → w.s.latestForwardDoneEvent.isSome
  pages : ∀ e ocl, w.s.inflightForward = some (e, ocl) → ∀ f ∈ w.flights, f.1 = e →
    ∀ p ∈ f.2, p = 0 ∨ ∃ t ∈ ocl, w.s.virtualToPhysical (t / c.pageSize) = some p

/-- The pages that the forwards in flight write. -/
def Written (w : Overlap) (p : Nat) : Prop := ∃ f ∈ w.flights, p ∈ f.2

section

variable (h : Tracked c w) {s' : MultiEndedAllocator} {timing : Timing}
include h

theorem Tracked.stays (hinv : Inv c s')
    (hs : Stays w.Written w.s s') : Tracked c ⟨s', w.flights⟩ := by
  refine ⟨hinv, ?_, fun e ocl hslot f hf he p hp => ?_⟩
  · rw [hs.slot, hs.latest]
    exact h.latest
  · rw [hs.slot] at hslot
    refine (h.pages e ocl hslot f hf he p hp).imp id fun ⟨t, ht, hv⟩ => ⟨t, ht, ?_⟩
    exact hs.bound _ p ⟨f, hf, hp⟩ hv

theorem Tracked.subset {fs : List Flight} (hfs : fs ⊆ w.flights) : Tracked c ⟨w.s, fs⟩ :=
  ⟨h.inv, h.latest, fun e ocl hslot f hf => h.pages e ocl hslot f (hfs hf)⟩

theorem Tracked.launch {e : Event} (ocl : List Nat) (hfresh : ∀ f ∈ w.flights, f.1 ≠ e) :
    Tracked c ⟨(w.s.setLatestForwardDoneEvent (some e)).setInflightForward e ocl,
      (e, resolve c w.s ocl) :: w.flights⟩ := by
  refine ⟨h.inv.setForward _ _ _ _, fun _ => rfl, fun e' ocl' hslot f hf he p hp => ?_⟩
  simp only [setInflightForward] at hslot
  split_ifs at hslot
  obtain ⟨rfl, rfl⟩ := Prod.mk.inj (Option.some.inj hslot)
  rcases mem_cons.mp hf with rfl | hf
  · obtain ⟨t, ht, rfl⟩ := mem_map.mp hp
    rcases hv : w.s.virtualToPhysical (t / c.pageSize) with - | q
    · exact .inl rfl
    · exact .inr ⟨t, ht, hv⟩
  · exact absurd he (hfresh f hf)

/-- A page of a forward that is in flight and in the slot is in the write set of a flush. -/
theorem Tracked.written {f : Flight}
    (hf : f ∈ w.inFlight timing) (hslot : w.s.inflightForward.map Prod.fst = some f.1) {p : Nat}
    (hp : p ∈ f.2) : p = 0 ∨ p ∈ w.s.inflightWriteSet c timing.firedAtWalk ∧
      w.s.physicalToVirtual p ≠ none := by
  obtain ⟨hmem, hfired⟩ := mem_filter.mp hf
  obtain ⟨⟨e, ocl⟩, hs, rfl⟩ := map_eq_some_iff.mp hslot
  refine (h.pages _ ocl hs f hmem rfl p hp).imp id fun ⟨t, ht, hv⟩ => ⟨?_, ?_⟩
  · simp only [inflightWriteSet, hs]
    rw [if_neg (by simpa using hfired)]
    exact mem_map.mpr ⟨t, ht, by rw [hv]; rfl⟩
  · rw [(h.inv.inverse _ p).mp hv]
    exact some_ne_none _

/-- **One flush.** -/
theorem Tracked.raceFree (hslot : w.InSlot timing) : w.RaceFree c timing := by
  intro m hm f hf
  have hsrc := h.inv.flushBatch_src timing m.1 (mem_map_of_mem hm)
  have hdst := (flushBatch_spec h.inv timing false).2.2.2 m.2 (mem_map_of_mem hm)
  refine ⟨fun hp => ?_, fun hp => ?_⟩
  · rcases h.written hf (hslot f hf) hp with h0 | ⟨hw, -⟩
    · exact hsrc.1 h0
    · exact hsrc.2 hw
  · rcases h.written hf (hslot f hf) hp with h0 | ⟨-, hbound⟩
    · rw [h0, h.inv.classes.sink] at hdst
      cases hdst
    · exact hbound hdst

theorem Tracked.flush (hslot : w.InSlot timing) (hov : ¬ Overwrites c w.s timing)
    (ha : w.s.flush c timing false = some s') : Tracked c ⟨s', w.inFlight timing⟩ := by
  obtain ⟨s'', ha', hinv⟩ := h.inv.flush timing false fun _ => hov
  cases ha.symm.trans ha'
  obtain ⟨hlatest, hforward⟩ := flush_forward ha
  have hbound := h.inv.flush_bound
    (S := fun p => ∃ f ∈ w.inFlight timing, p ∈ f.2) (fun src hsrc ⟨f, hf, hp⟩ => by
      obtain ⟨m, hm, rfl⟩ := mem_map.mp hsrc
      exact (h.raceFree hslot m hm f hf).1 hp) ha
  rcases hforward with hsame | ⟨hnone, -⟩
  · exact (h.subset (filter_sublist).subset).stays hinv ⟨hsame, hlatest, hbound⟩
  · refine ⟨hinv, ?_, ?_⟩
    · simp [hnone]
    · simp [hnone]

/-- An urgent flush waits for the forwards, or it moves nothing. -/
theorem Tracked.urgentFlush (ha : w.s.flush c timing true = some s') :
    Tracked c ⟨s', if Settles c w.s timing true then [] else w.inFlight timing⟩ := by
  obtain ⟨s'', ha', hinv⟩ := h.inv.flush timing true (by simp)
  cases ha.symm.trans ha'
  obtain ⟨hlatest, hforward⟩ := flush_forward ha
  rcases hforward with hsame | ⟨hnone, -⟩
  swap
  · exact ⟨hinv, by simp [hnone], by simp [hnone]⟩
  by_cases hslot : w.s.inflightForward = none
  · rw [hslot] at hsame
    exact ⟨hinv, by simp [hsame], by simp [hsame]⟩
  by_cases hsettles : Settles c w.s timing true
  · rw [if_pos hsettles]
    refine ⟨hinv, ?_, by simp⟩
    rw [hsame, hlatest]
    exact h.latest
  rw [if_neg hsettles]
  refine (h.subset (filter_sublist).subset).stays hinv ⟨hsame, hlatest, ?_⟩
  -- there is something to wait for, so there are no holes
  have hbatch : w.s.flushBatch c timing true = [] := by
    unfold flushBatch
    by_cases hgate : timing.moveGate
    swap
    · rw [if_pos (by simpa using hgate)]
    have hfree : (w.s.prepareFlush c timing true).freePhysPages = [] := by
      by_contra hne
      exact hsettles ⟨rfl, hgate, hne, h.latest (isSome_iff_ne_none.mpr hslot)⟩
    have houtward : c.outward ([] : List Nat) = [] := by
      unfold AllocConfig.outward; cases c.growDirection <;> rfl
    simp only [hgate, flushMoves, hfree, houtward]
    rfl
  exact h.inv.flush_bound (by simp [hbatch]) ha

theorem Tracked.free {tokens : List Nat} (ho : w.s.isNotInFreeGroup → Freeable c w.s tokens)
    (hk : w.s.isNotInFreeGroup → w.Unwritten c tokens)
    (ha : w.s.free c tokens = some s') : Tracked c ⟨s', w.flights⟩ := by
  obtain ⟨s'', ha', hinv⟩ := h.inv.free ho
  cases ha.symm.trans ha'
  refine h.stays hinv (Stays.free (fun hg v hv p => ?_) ha)
  rintro ⟨f, hf, hp⟩
  exact hk hg v hv f hf p hp

/-- **One step.** -/
theorem Tracked.exec {a : Act} (ho : w.Owed c a) (hk : w.Kept c a)
    (he : w.exec c a = some w') : Tracked c w' := by
  cases a with
  | launch e ocl =>
    cases he
    exact h.launch ocl ho
  | fire e =>
    cases he
    exact h.subset filter_sublist.subset
  | alloc peer timing n =>
    obtain ⟨⟨r, s, peer'⟩, ha, rfl⟩ := map_eq_some_iff.mp he
    have ha := h.inv.alloc_allocates ho ha
    exact h.stays (h.inv.allocates ho ha).1 (.allocates _ h.inv ha)
  | allocPaged peer timing num look =>
    obtain ⟨⟨r, s, peer'⟩, ha, rfl⟩ := map_eq_some_iff.mp he
    have ha := allocPaged_allocates ha
    exact h.stays (h.inv.allocates ho ha).1 (.allocates _ h.inv ha)
  | allocWithVirtual peer vs =>
    obtain ⟨s, ha, rfl⟩ := map_eq_some_iff.mp he
    refine h.stays (h.inv.allocWithVirtual ho.1 ho.2.1 ho.2.2 ha) ?_
    unfold allocWithVirtual at ha
    split_ifs at ha
    · cases ha
      exact .refl _ _
    · exact .allocBind _ h.inv.classes ho.2.2 ha
  | free tokens =>
    obtain ⟨s, ha, rfl⟩ := map_eq_some_iff.mp he
    exact h.free ho hk ha
  | freeGroupBegin =>
    cases he
    exact h.stays (h.inv.setForward _ _ _ _) ⟨rfl, rfl, fun _ _ _ hv => hv⟩
  | freeGroupEnd =>
    obtain ⟨s, ha, rfl⟩ := map_eq_some_iff.mp he
    have hclosed : Tracked c ⟨{ w.s with isNotInFreeGroup := true, freeGroup := [] }, w.flights⟩ :=
      h.stays (h.inv.setForward _ _ _ _) ⟨rfl, rfl, fun _ _ _ hv => hv⟩
    exact hclosed.free (fun _ => ho) (fun _ => hk) ha
  | flush timing urgent =>
    obtain ⟨s, ha, rfl⟩ := map_eq_some_iff.mp he
    cases urgent with
    | true => exact h.urgentFlush ha
    | false =>
      exact h.flush (hk rfl).1 (hk rfl).2 ha
  | flushOpportunistic timing =>
    obtain ⟨s, ha, rfl⟩ := map_eq_some_iff.mp he
    unfold flushOpportunistic at ha
    split_ifs at ha
    · cases ha
      exact h.subset filter_sublist.subset
    · exact h.flush hk.1 hk.2 ha
  | maybeDrainPendingReuse timing =>
    cases he
    refine h.stays (h.inv.drainPendingReuse _ _) ?_
    unfold drainPendingReuse
    simp only
    split_ifs
    · exact .refl _ _
    · exact ⟨rfl, rfl, fun _ _ _ hv => hv⟩

end

theorem Tracked.run (hrun : Run c (Kept c) w) : Tracked c w := by
  induction hrun with
  | refl => exact ⟨inv_clear c, by simp [clear], by simp⟩
  | tail _ ho hk ha ih => exact ih.exec ho hk ha

/-- **Compaction does not race with the forward**: in every state of a run in which no page is freed
that a forward in flight writes, a non-urgent flush moves nothing out of or into such a page, if the
forwards in flight are the one that the allocator knows of. -/
theorem flush_raceFree (hrun : Run c (Kept c) w) (timing : Timing)
    (hk : w.Kept c (.flush timing false)) : w.RaceFree c timing :=
  (Tracked.run hrun).raceFree (hk rfl).1

/-! ### Two runs -/

/-- The state after a step that is possible. -/
def after (c : AllocConfig) (w : Overlap) (a : Act) : Overlap := (w.exec c a).getD w

theorem Run.after {ok : Overlap → Act → Prop} (h : Run c ok w) {a : Act} (ho : w.Owed c a)
    (hk : ok w a) (he : (w.exec c a).isSome) : Run c ok (w.after c a) := by
  refine .tail h ho hk ?_
  obtain ⟨w', hw'⟩ := isSome_iff_exists.mp he
  rw [Overlap.after, hw']
  rfl

/-- Four pages are bound and forward 7 is launched, which writes one of them. -/
def launched (written : Nat) : Overlap :=
  (after (smallPools .first) ⟨.clear (smallPools .first), []⟩
    (.alloc none (answering false) 4)).after (smallPools .first) (.launch 7 [written])

theorem run_launched (ok : Overlap → Act → Prop) (hok : ∀ w, ok w (.alloc none (answering false) 4))
    (hok' : ∀ w ocl, ok w (.launch 7 ocl)) (written : Nat) :
    Run (smallPools .first) ok (launched written) := by
  refine .after (.after .refl ?_ (hok _) ?_) ?_ (hok' _ _) rfl
  · rintro _ _ ⟨⟩
  · decide +kernel
  · have hnone : (after (smallPools .first) ⟨.clear (smallPools .first), []⟩
        (.alloc none (answering false) 4)).flights = [] := by decide +kernel
    intro f hf
    simp [hnone] at hf

/-- Forward 7 writes page 2 and page 1 is freed: the flush fills it from page 4. -/
theorem flush_raceFree_pageTwo :
    ((launched 2).after (smallPools .first) (.free [1])).s.flushBatch (smallPools .first)
        (answering false) false = [(4, 1)] ∧
      ((launched 2).after (smallPools .first) (.free [1])).RaceFree (smallPools .first)
        (answering false) := by
  refine ⟨by decide +kernel, flush_raceFree (.after (run_launched _ (fun _ => trivial)
    (fun _ _ => trivial) 2) ?_ ?_ ?_) _ ?_⟩
  · unfold Owed
    decide +kernel
  · unfold Kept Unwritten
    decide +kernel
  · decide +kernel
  · unfold Kept InSlot
    decide +kernel

/-- **A flush into a page that is being written.**  Forward 7 writes page 1 and is still running when
the page is freed; the flush copies page 4 there. -/
theorem flush_into_written_page : ∃ w : Overlap,
    Run (smallPools .first) (fun _ _ => True) w ∧ (7, [1]) ∈ w.inFlight (answering false) ∧
      w.s.flushBatch (smallPools .first) (answering false) false = [(4, 1)] := by
  refine ⟨(launched 1).after (smallPools .first) (.free [1]), .after (run_launched _
    (fun _ => trivial) (fun _ _ => trivial) 1) ?_ trivial ?_, by decide +kernel, by decide +kernel⟩
  · unfold Owed
    decide +kernel
  · decide +kernel

/-- The slot holds one forward: after a second launch the flush reads page 4, which forward 7 still
writes. -/
theorem flush_out_of_older_page : ∃ w : Overlap,
    Run (smallPools .first) (fun _ _ => True) w ∧ (7, [4]) ∈ w.inFlight (answering false) ∧
      w.s.flushBatch (smallPools .first) (answering false) false = [(4, 1)] := by
  refine ⟨((launched 4).after (smallPools .first) (.launch 8 [2])).after (smallPools .first)
    (.free [1]), .after (.after (run_launched _ (fun _ => trivial) (fun _ _ => trivial) 4) ?_
      trivial rfl) ?_ trivial ?_, by decide +kernel, by decide +kernel⟩
  · unfold Owed
    decide +kernel
  · unfold Owed
    decide +kernel
  · decide +kernel

end Overlap

end SglangRuntime.MultiEnded
