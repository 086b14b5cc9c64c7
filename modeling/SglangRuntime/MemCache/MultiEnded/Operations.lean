import SglangRuntime.MemCache.MultiEnded.Flush

/-!
# Memory cache — the operations of `MultiEndedAllocator`

Each operation keeps `Inv`, under what its callers owe it: ids that are handed to
`alloc_with_virtual` are unbound, tokens that are freed belong to bound pages.  A non-urgent flush
has one more case to exclude (`Overwrites`).
-/

namespace SglangRuntime.MultiEnded

open Foundation List Option MultiEndedAllocator AllocConfig Prod

namespace MultiEndedAllocator

variable {c : AllocConfig} {s s' : MultiEndedAllocator} {peer : Peer} {n : Nat} {wm' need : Nat}
  {phys vs tokens : List Nat} {timing : Timing} {peer' : Peer}

/-- The invariant is not about the free group or the forward in flight. -/
theorem Inv.setForward (h : Inv c s) (group : Bool) (tokens : List Nat) (latest : Option Event)
    (inflight : Option (Event × List Nat)) :
    Inv c { s with
      isNotInFreeGroup := group
      freeGroup := tokens
      latestForwardDoneEvent := latest
      inflightForward := inflight } :=
  ⟨h.classes, h.inverse, h.count, h.mirror, h.keys, fun ho =>
    ⟨(h.ids ho).nodup, (h.ids ho).mem_iff, (h.ids ho).bound, (h.ids ho).count⟩⟩

/-! ### Flushing -/

/-- The pages that a drain would give back. -/
def drainable (s : MultiEndedAllocator) (fired : Event → Bool) : List Nat :=
  (s.pendingReuse.filter fun e => fired e.1).flatMap snd

/-- A non-urgent pass has something to move: the topmost live page is not being written, and there
is a hole farther in. -/
def WouldMove (c : AllocConfig) (s : MultiEndedAllocator) (timing : Timing) : Prop :=
  ∃ src < c.numPages, ∃ dst ∈ s.freePhysPages ++ s.drainable timing.firedAtDrain,
    c.InBand s.watermark src ∧ s.physicalToVirtual src ≠ none ∧
      (∀ q < c.numPages, c.InBand s.watermark q → s.physicalToVirtual q ≠ none → ¬ c.Outer q src) ∧
      src ∉ s.inflightWriteSet c timing.firedAtWalk ∧ c.Outer src dst

/-- The event of the latest forward has not fired and already has an entry in `_pending_reuse`, and
the pass would add another one under the same key. -/
def Overwrites (c : AllocConfig) (s : MultiEndedAllocator) (timing : Timing) : Prop :=
  timing.moveGate ∧
    (∃ e ∈ s.pendingReuse.map fst, s.latestForwardDoneEvent = some e ∧
      timing.firedAtDrain e = false ∧ timing.firedAtCommit e = false) ∧
    WouldMove c s timing

instance (timing : Timing) : Decidable (WouldMove c s timing) := by
  unfold WouldMove; infer_instance

instance (timing : Timing) : Decidable (Overwrites c s timing) := by
  unfold Overwrites; infer_instance

/-- What the first half of a pass leaves alone. -/
theorem prepareFlush_frame (s : MultiEndedAllocator) (timing : Timing) (urgent : Bool) :
    (s.prepareFlush c timing urgent).latestForwardDoneEvent = s.latestForwardDoneEvent ∧
      (s.prepareFlush c timing urgent).inflightForward = s.inflightForward ∧
      (s.prepareFlush c timing urgent).virtualToPhysical = s.virtualToPhysical ∧
      (s.prepareFlush c timing urgent).physicalToVirtual = s.physicalToVirtual := by
  simp only [prepareFlush, absorbBoundaryHoles, drainPendingReuse]
  split_ifs <;> exact ⟨rfl, rfl, rfl, rfl⟩

/-- A drain keeps the entries that have not fired. -/
theorem prepareFlush_pendingReuse (s : MultiEndedAllocator) (timing : Timing) (urgent : Bool) :
    (s.prepareFlush c timing urgent).pendingReuse =
      s.pendingReuse.filter fun e => !(timing.firedAtDrain e.1 || urgent) := by
  simp only [prepareFlush, absorbBoundaryHoles, drainPendingReuse]
  split_ifs with h
  · refine (filter_eq_self.mpr fun e he => ?_).symm
    simpa using filter_eq_nil_iff.mp h e he
  · rfl

/-- The holes of a non-urgent pass were holes before, or come out of the drain. -/
theorem mem_prepareFlush (h : Inv c s) (timing : Timing) {p : Nat}
    (hp : p ∈ (s.prepareFlush c timing false).freePhysPages) :
    p ∈ s.freePhysPages ++ s.drainable timing.firedAtDrain := by
  have hd := h.drainPendingReuse timing.firedAtDrain false
  have hsorted := perm_insertionSort (· ≤ ·)
    (s.drainPendingReuse c timing.firedAtDrain false).freePhysPages
  have hp := hsorted.mem_iff.mp ((hd.setFree hsorted).absorbBoundaryHoles.2.subset hp)
  simp only [drainPendingReuse, Bool.or_false] at hp
  split_ifs at hp with hready
  · exact mem_append_left _ hp
  · exact (mergeSorted_perm c _).mem_iff.mp hp

/-- If a non-urgent pass moves a page, it had something to move. -/
theorem Inv.wouldMove (h : Inv c s) (timing : Timing)
    (hne : (s.prepareFlush c timing false).flushMoves c timing false ≠ []) :
    WouldMove c s timing := by
  obtain ⟨hinv, hsorted⟩ := h.prepareFlush timing false
  obtain ⟨-, hfwd, hv, hg⟩ := prepareFlush_frame (c := c) s timing false
  have hmem := fun p hp => mem_prepareFlush h timing (p := p) hp
  set s₁ := s.prepareFlush c timing false
  obtain ⟨src, dst, hdst, hin, hall, hpen, hws, ho, htop⟩ :=
    walk_head (startPage_none s₁) (cursor_start hsorted)
      (fun d hd => mem_outward.mp hd) hne
  have hband := (inFrom_edge hinv.classes.ok).mp hin
  have hlive : s.physicalToVirtual src ≠ none := by
    intro e
    have hu := (hinv.classes.mem_iff src).mpr ⟨hband, hg ▸ e⟩
    rcases mem_append.mp hu with h' | h'
    · exact hall h'
    · exact hpen ((hinv.mirror src).mpr h')
  have hband' : c.InBand s.watermark src := by
    obtain ⟨v, e⟩ := ne_none_iff_exists'.mp hlive
    exact (h.classes.bound src v e).resolve_left (hinv.classes.ne_zero hband)
  refine ⟨src, (hband'.range h.classes.ok).2, dst, hmem dst hdst, hband', hlive,
    fun q _ hq hqb hqs => ?_, ?_, ho⟩
  · -- a live page of the band is still in the band, so the walk would have met it first
    obtain ⟨v, e⟩ := ne_none_iff_exists'.mp hqb
    have hq₁ : c.InBand s₁.watermark q :=
      (hinv.classes.bound q v (hg ▸ e)).resolve_left (h.classes.ne_zero hq)
    have hu : q ∈ s₁.freePhysPages ++ s₁.pendingPages :=
      mem_append.mpr ((htop q ((inFrom_edge hinv.classes.ok).mpr hq₁) hqs).imp_right
        (hinv.mirror q).mp)
    exact hqb (hg ▸ ((hinv.classes.mem_iff q).mp hu).2)
  · simp only [Bool.false_eq_true, if_false, inflightWriteSet, hfwd, hv] at hws
    exact hws

/-- The walk does not look at the forward. -/
theorem walk_setForward (inflight : Option (Event × List Nat)) (writeSet : List Nat)
    (moveCap cursor : Option Nat) (dsts holes : List Nat) :
    walk c { s with inflightForward := inflight } writeSet moveCap dsts cursor holes n =
      s.walk c writeSet moveCap dsts cursor holes n := by
  induction dsts generalizing cursor holes n with
  | nil => rfl
  | cons dst dsts ih =>
    have htop : topmostSurvivor c { s with inflightForward := inflight } =
      topmostSurvivor c s := rfl
    simp only [walk, htop, ih]

/-- **A flush** keeps the invariant, unless it is a non-urgent one that replaces a pending entry. -/
theorem Inv.flush (h : Inv c s) (timing : Timing) (urgent : Bool)
    (hov : urgent = false → ¬ Overwrites c s timing) :
    ∃ s', s.flush c timing urgent = some s' ∧ Inv c s' := by
  unfold MultiEndedAllocator.flush
  by_cases hgate : timing.moveGate
  swap
  · exact ⟨s, by simp [hgate], h⟩
  obtain ⟨hinv, hsorted⟩ := h.prepareFlush timing urgent
  obtain ⟨hlatest, -⟩ := prepareFlush_frame (c := c) s timing urgent
  have hpending := prepareFlush_pendingReuse (c := c) s timing urgent
  have hmove := h.wouldMove timing
  simp only [hgate, Bool.not_true, Bool.false_eq_true, if_false]
  by_cases hurgent : urgent ∧ (s.prepareFlush c timing urgent).freePhysPages ≠ []
  · obtain ⟨rfl, hholes⟩ := hurgent
    rw [if_pos (by simp [hholes])]
    set s₁ := s.prepareFlush c timing true
    have hnone : s₁.pendingReuse = [] := by simpa using hpending
    -- the exit is the same whether or not the forward slot is dropped
    have pass (inflight : Option (Event × List Nat)) : ∃ s₂ released,
        commitMoveBatch { s₁ with inflightForward := inflight } (s₁.flushMoves c timing true) none
          timing.firedAtCommit = some (s₂, released) ∧
        Inv c (s₂.fullPack c s₁.freePhysPages.length) := by
      refine Inv.urgentPass (hinv.setForward s₁.isNotInFreeGroup s₁.freeGroup
        s₁.latestForwardDoneEvent inflight) hnone hsorted ?_
      rw [walk_setForward]
      rfl
    split_ifs
    · obtain ⟨s₂, released, e, hi⟩ := pass none
      exact ⟨_, by rw [e]; rfl, hi⟩
    · obtain ⟨s₂, released, e, hi⟩ := pass s₁.inflightForward
      exact ⟨_, by rw [e]; rfl, hi⟩
  · rw [if_neg (by simpa using hurgent)]
    have hnew : (s.prepareFlush c timing urgent).flushMoves c timing urgent ≠ [] → ∀ e,
        (s.prepareFlush c timing urgent).latestForwardDoneEvent = some e →
        timing.firedAtCommit e = false →
        e ∉ (s.prepareFlush c timing urgent).pendingReuse.map fst := by
      intro hm e he hfire hkey
      cases urgent with
      | true =>
        refine hm ?_
        have hempty : (s.prepareFlush c timing true).freePhysPages = [] := by
          simpa using hurgent
        simp only [flushMoves, hempty, outward]
        cases c.growDirection <;> rfl
      | false =>
        obtain ⟨⟨e', pages⟩, hmem, rfl⟩ := mem_map.mp hkey
        rw [hpending, mem_filter] at hmem
        exact hov rfl ⟨hgate, ⟨e', mem_map.mpr ⟨_, hmem.1, rfl⟩, hlatest ▸ he,
          by simpa using hmem.2, hfire⟩, hmove hm⟩
    set s₁ := s.prepareFlush c timing urgent
    have hw : Walked c _ _ _ _ (s₁.flushMoves c timing urgent) := walk_outward hsorted _ _
    have pass (inflight : Option (Event × List Nat)) : ∃ s₂ released,
        commitMoveBatch { s₁ with inflightForward := inflight } (s₁.flushMoves c timing urgent)
          s₁.latestForwardDoneEvent timing.firedAtCommit = some (s₂, released) ∧
        Inv c (s₂.partialPack c (s₁.flushMoves c timing urgent).length released) :=
      Inv.partialPass (hinv.setForward s₁.isNotInFreeGroup s₁.freeGroup
        s₁.latestForwardDoneEvent inflight) hw hnew
    split_ifs
    · obtain ⟨s₂, released, e, hi⟩ := pass (s₁.inflightForward.filter fun f => !timing.firedAtWalk f.1)
      exact ⟨_, by simp only [dropFired]; rw [e]; rfl, hi⟩
    · obtain ⟨s₂, released, e, hi⟩ := pass s₁.inflightForward
      exact ⟨_, by rw [e]; rfl, hi⟩

theorem Inv.flushOpportunistic (h : Inv c s) (timing : Timing) (hov : ¬ Overwrites c s timing) :
    ∃ s', s.flushOpportunistic c timing = some s' ∧ Inv c s' := by
  unfold MultiEndedAllocator.flushOpportunistic
  split_ifs
  · exact ⟨s, rfl, h⟩
  · exact h.flush timing false fun _ => hov

/-! ### Allocation -/

theorem takeHoles_spec (c : AllocConfig) {free : List Nat} (hn : n ≤ free.length) :
    ((takeHoles c free n).1 ++ (takeHoles c free n).2).Perm free ∧
      (takeHoles c free n).1.length = n := by
  unfold takeHoles
  split_ifs
  · refine ⟨?_, ?_⟩
    · refine ((reverse_perm _).append_right _).trans (perm_append_comm.trans ?_)
      rw [take_append_drop]
    · rw [length_reverse, length_drop]
      omega
  · exact ⟨by rw [take_append_drop], by rw [length_take]; omega⟩

/-- `n` unbound pages have been taken: holes, pages beyond the old watermark, or both. -/
structure Taken (c : AllocConfig) (s : MultiEndedAllocator) (n : Nat) (phys : List Nat)
    (wm' : Nat) (free' : List Nat) : Prop where
  length : phys.length = n
  classes : Classes c wm' s.physicalToVirtual (phys ++ (free' ++ s.pendingPages))
  count : c.allocatedPages wm' + s.freePhysPages.length =
    c.allocatedPages s.watermark + n + free'.length

theorem Taken.of_extend (h : Classes c s.watermark s.physicalToVirtual
    (s.freePhysPages ++ s.pendingPages)) (hn : 0 < n) (he : s.extendWatermark c peer n = some s') :
    (∃ wm', s' = { s with watermark := wm' }) ∧
      Taken c s n (s'.extensionPages c n) s'.watermark s.freePhysPages := by
  obtain ⟨hs', hext, hlen⟩ := extendWatermark_spec h.ok hn he
  refine ⟨hs', hlen, (h.extend hext).perm perm_append_comm, ?_⟩
  have := hext.count
  omega

/-- Holes are taken first. -/
theorem Taken.of_holes {k : Nat} {new : List Nat} (hk : k ≤ s.freePhysPages.length)
    (h : Taken c s n new wm' s.freePhysPages) :
    Taken c s (k + n) ((takeHoles c s.freePhysPages k).1 ++ new) wm'
      (takeHoles c s.freePhysPages k).2 := by
  obtain ⟨hperm, hlen⟩ := takeHoles_spec c hk
  refine ⟨by rw [length_append, hlen, h.length], h.classes.perm ?_, ?_⟩
  · refine perm_iff_count.mpr fun p => ?_
    have := hperm.count_eq p
    simp only [count_append] at this ⊢
    omega
  · have := hperm.length_eq
    have := h.count
    rw [length_append] at *
    omega

theorem takePhysical_spec (h : Classes c s.watermark s.physicalToVirtual
    (s.freePhysPages ++ s.pendingPages)) (ht : s.takePhysical c peer n = some (phys, s')) :
    ∃ wm' free', s' = { s with
        watermark := wm', freePhysPages := free', livePageCount := s.livePageCount + n } ∧
      Taken c s n phys wm' free' := by
  have hk : min n s.freePhysPages.length ≤ s.freePhysPages.length := Nat.min_le_right _ _
  have hsum : min n s.freePhysPages.length + (n - min n s.freePhysPages.length) = n := by omega
  simp only [takePhysical, map_eq_some_iff] at ht
  obtain ⟨s₁, he, ht⟩ := ht
  -- the pages beyond the watermark, in the order in which they are listed
  have hnew (new : List Nat) (hperm : new.Perm (s₁.extensionPages c
      (n - min n s.freePhysPages.length))) :
      (∃ wm', s₁ = { s with watermark := wm' }) ∧
        Taken c s (n - min n s.freePhysPages.length) new s₁.watermark s.freePhysPages := by
    split_ifs at he with hmore
    · cases he
      rw [hmore] at hperm ⊢
      have hnil : s.extensionPages c 0 = [] := by
        unfold extensionPages
        cases c.growDirection <;> rfl
      rw [hnil, perm_nil] at hperm
      subst hperm
      exact ⟨⟨_, rfl⟩, rfl, h, by omega⟩
    · obtain ⟨hs₁, htaken⟩ := Taken.of_extend h (Nat.pos_of_ne_zero hmore) he
      exact ⟨hs₁, hperm.length_eq.trans htaken.length,
        htaken.classes.perm (hperm.symm.append_right _), htaken.count⟩
  obtain ⟨⟨wm', rfl⟩, htaken⟩ := hnew
    (if c.growDirection = .down ∧ min n s.freePhysPages.length ≠ 0 then
      (s₁.extensionPages c (n - min n s.freePhysPages.length)).reverse
    else s₁.extensionPages c (n - min n s.freePhysPages.length)) (by
      split_ifs
      · exact reverse_perm _
      · exact .refl _)
  cases ht
  refine ⟨_, _, rfl, ?_⟩
  have := htaken.of_holes hk
  rw [hsum] at this
  exact this

/-- The pages are taken and bound. -/
theorem allocBind_spec (h : Classes c s.watermark s.physicalToVirtual
    (s.freePhysPages ++ s.pendingPages)) (hn : 0 < n)
    (ha : s.allocBindFastOrSlow c peer vs n = some s') :
    ∃ phys wm' free', Taken c s n phys wm' free' ∧
      s' = { s with
        watermark := wm', freePhysPages := free', livePageCount := s.livePageCount + n
        virtualToPhysical := scatter s.virtualToPhysical vs phys
        physicalToVirtual := scatter s.physicalToVirtual phys vs } := by
  simp only [allocBindFastOrSlow, hn.ne', if_false] at ha
  split_ifs at ha with hholes
  · obtain ⟨s₁, he, rfl⟩ := map_eq_some_iff.mp ha
    obtain ⟨⟨wm', rfl⟩, htaken⟩ := Taken.of_extend h hn he
    exact ⟨_, _, _, htaken, rfl⟩
  · obtain ⟨⟨phys, s₁⟩, he, rfl⟩ := map_eq_some_iff.mp ha
    obtain ⟨wm', free', rfl, htaken⟩ := takePhysical_spec h he
    exact ⟨_, _, _, htaken, rfl⟩

/-- The first free ids are bound. -/
theorem Ids.take (h : Ids c s) (hn : n ≤ s.freeVirtualIds.length)
    (hlen : phys.length = n) (wm : Nat) (free : List Nat) (g : Nat → Option Nat) :
    Ids c { s with
      watermark := wm, freePhysPages := free, livePageCount := s.livePageCount + n
      freeVirtualIds := s.freeVirtualIds.drop n
      virtualToPhysical := scatter s.virtualToPhysical (s.freeVirtualIds.take n) phys
      physicalToVirtual := g } := by
  have hlen' : (s.freeVirtualIds.take n).length = phys.length := by
    rw [length_take]
    omega
  have hnd : (s.freeVirtualIds.take n ++ s.freeVirtualIds.drop n).Nodup := by
    rw [take_append_drop]
    exact h.nodup
  obtain ⟨htake, hdrop, hdis⟩ := nodup_append.mp hnd
  refine ⟨hdrop, fun v => ?_, fun v p hv => ?_, ?_⟩
  · show v ∈ s.freeVirtualIds.drop n ↔ _ ∧ _ ∧
      scatter s.virtualToPhysical (s.freeVirtualIds.take n) phys v = none
    by_cases hv : v ∈ s.freeVirtualIds.take n
    · have hnot : v ∉ s.freeVirtualIds.drop n := fun hm => hdis v hv v hm rfl
      obtain ⟨p, hz⟩ := exists_mem_zip hlen' hv
      rw [(scatter_eq_some_iff htake hlen').mpr (.inl hz)]
      exact iff_of_false hnot (by simp)
    · rw [scatter_of_notMem hv, ← h.mem_iff v, ← take_append_drop n s.freeVirtualIds,
        mem_append]
      simp [hv]
  · rcases (scatter_eq_some_iff htake hlen').mp hv with hz | ⟨-, hv⟩
    · have hm := mem_of_mem_take (of_mem_zip hz).1
      have := (h.mem_iff v).mp hm
      exact .inr ⟨this.1, this.2.1⟩
    · exact h.bound v p hv
  · have := h.count
    simp only [length_drop]
    omega

/-- Unbound ids and unbound pages are bound to each other. -/
theorem Inv.bindTaken (h : Inv c s) {free' : List Nat} (ids : List Nat)
    (ht : Taken c s n phys wm' free') (hvs : vs.Nodup) (hlen : vs.length = n)
    (hfree : ∀ v ∈ vs, s.virtualToPhysical v = none) (hids : c.isIdOwner → Ids c { s with
      watermark := wm', freePhysPages := free', livePageCount := s.livePageCount + n
      freeVirtualIds := ids
      virtualToPhysical := scatter s.virtualToPhysical vs phys
      physicalToVirtual := scatter s.physicalToVirtual phys vs }) :
    Inv c { s with
      watermark := wm', freePhysPages := free', livePageCount := s.livePageCount + n
      freeVirtualIds := ids
      virtualToPhysical := scatter s.virtualToPhysical vs phys
      physicalToVirtual := scatter s.physicalToVirtual phys vs } := by
  have hlen' : phys.length = vs.length := ht.length.trans hlen.symm
  have hphys := (nodup_append.mp ht.classes.nodup).1
  refine ⟨ht.classes.bind hlen', ?_, ?_, h.mirror, h.keys, hids⟩
  · refine h.inverse.bind hvs hphys hlen'.symm hfree fun p hp => ?_
    exact ((ht.classes.mem_iff p).mp (mem_append_left _ hp)).2
  · have h₁ := h.count
    have h₂ := ht.count
    simp only [pendingPages, length_append] at h₁ h₂ ⊢
    omega

/-- An id owner has a free id for every page that it has room for. -/
theorem Inv.le_freeVirtualIds (h : Inv c s) (ho : c.isIdOwner)
    (hroom : n * c.pageSize ≤ s.availableSize c peer) : n ≤ s.freeVirtualIds.length := by
  have hn : n ≤ min (s.currentGapBytes c peer / c.entryBytesPerPage)
      (c.numPages - c.minPageIndex - c.allocatedPages s.watermark) + s.freePhysPages.length :=
    Nat.le_of_mul_le_mul_right hroom c.pageSize_pos
  have hspan : c.allocatedPages s.watermark ≤ c.numPages - c.minPageIndex := by
    have hok := h.classes.ok
    unfold AllocConfig.WatermarkOk at hok
    unfold allocatedPages
    cases hd : c.growDirection <;> simp only [hd] at hok ⊢ <;> omega
  have hcount := h.count
  have hids := (h.ids ho).count
  rw [length_append] at hcount
  omega

/-- An owner takes ids and pages.  `alloc` takes the ids off the list before it binds them,
`alloc_extend` and `alloc_decode` afterwards. -/
theorem Inv.allocOwner (h : Inv c s) (ho : c.isIdOwner) (hn : n ≤ s.freeVirtualIds.length)
    {ids : List Nat} (ha : allocBindFastOrSlow c { s with freeVirtualIds := ids } peer
      (s.freeVirtualIds.take n) n = some s') :
    Inv c { s' with freeVirtualIds := s.freeVirtualIds.drop n } ∧ s'.freeVirtualIds = ids := by
  rcases Nat.eq_zero_or_pos n with rfl | hpos
  · cases ha
    exact ⟨h, rfl⟩
  obtain ⟨phys, wm', free', ht, rfl⟩ :=
    allocBind_spec (s := { s with freeVirtualIds := ids }) h.classes hpos ha
  refine ⟨h.bindTaken (s.freeVirtualIds.drop n) ⟨ht.length, ht.classes, ht.count⟩
    ((h.ids ho).nodup.sublist (take_sublist _ _)) (by rw [length_take]; omega)
    (fun v hv => ?_) fun ho => (h.ids ho).take hn ht.length _ _ _, rfl⟩
  exact ((h.ids ho).mem_iff v |>.mp (mem_of_mem_take hv)).2.2

/-- The invariant of the peer, if one is bound. -/
def PeerInv (peer : Peer) : Prop := ∀ pc p, peer = some (pc, p) → Inv pc p

theorem ensureRoom_spec {room : Bool}
    (hp : PeerInv peer) (he : s.ensureRoom c peer timing need = some (room, peer')) :
    (room → need ≤ s.availableSize c peer') ∧ PeerInv peer' ∧
      peer'.map fst = peer.map fst := by
  unfold ensureRoom at he
  split_ifs at he with hroom
  · cases he
    exact ⟨fun _ => hroom, hp, rfl⟩
  rcases peer with - | ⟨pc, p⟩
  · cases he
    exact ⟨by simp, hp, rfl⟩
  obtain ⟨p', hf, he⟩ := map_eq_some_iff.mp he
  obtain ⟨p'', hf', hinv⟩ := (hp pc p rfl).flush timing true (by simp)
  cases he
  cases hf.symm.trans hf'
  exact ⟨fun h => of_decide_eq_true h, fun _ _ e => by cases e; exact hinv, rfl⟩

/-- What `alloc`, `alloc_extend` and `alloc_decode` can do: the peer makes room, and then nothing
changes or the first free ids are bound. -/
def Allocates (c : AllocConfig) (s : MultiEndedAllocator) (peer : Peer) (s' : MultiEndedAllocator)
    (peer' : Peer) : Prop :=
  ∃ timing room n, s.ensureRoom c peer timing (n * c.pageSize) = some (room, peer') ∧
    (s' = s ∨ room ∧ c.isIdOwner ∧ ∃ ids s₁,
      allocBindFastOrSlow c { s with freeVirtualIds := ids } peer' (s.freeVirtualIds.take n) n =
        some s₁ ∧ s' = { s₁ with freeVirtualIds := s.freeVirtualIds.drop n })

theorem Allocates.nothing (c : AllocConfig) (s : MultiEndedAllocator) (peer : Peer)
    (timing : Timing) : Allocates c s peer s peer :=
  ⟨timing, true, 0, by rw [Nat.zero_mul]; exact if_pos (Nat.zero_le _), .inl rfl⟩

theorem Inv.alloc_allocates (h : Inv c s) {r : Option (List Nat)} (hp : PeerInv peer) (ha : s.alloc c peer timing need = some (r, s', peer')) :
    Allocates c s peer s' peer' := by
  unfold alloc at ha
  by_cases ho : c.isIdOwner
  swap
  · simp [ho] at ha
  simp only [ho, Bool.not_true, Bool.false_eq_true, if_false] at ha
  split_ifs at ha with h0 hmod
  · cases ha
    exact .nothing c s peer timing
  obtain ⟨⟨room, peer₁⟩, he, ha⟩ := map_eq_some_iff.mp ha
  have hneed : need / c.pageSize * c.pageSize = need :=
    Nat.div_mul_cancel (Nat.dvd_of_mod_eq_zero (not_not.mp hmod))
  rw [← hneed] at he
  cases room with
  | false =>
    cases ha
    exact ⟨timing, false, _, he, .inl rfl⟩
  | true =>
    have hn := h.le_freeVirtualIds ho ((ensureRoom_spec hp he).1 rfl)
    simp only [if_true] at ha
    split at ha
    · cases ha
      exact ⟨timing, true, _, he, .inl rfl⟩
    · next s₁ hs₁ =>
      cases ha
      refine ⟨timing, true, _, he, .inr ⟨rfl, ho, _, _, hs₁, ?_⟩⟩
      rw [← (h.allocOwner ho hn hs₁).2]

theorem allocPaged_allocates {num look : Nat} {r : Bool}
    (ha : s.allocPaged c peer timing num look = some (r, s', peer')) :
    Allocates c s peer s' peer' := by
  unfold allocPaged at ha
  by_cases ho : c.isIdOwner
  swap
  · simp [ho] at ha
  simp only [ho, Bool.not_true, Bool.false_eq_true, if_false] at ha
  by_cases hfew : s.freeVirtualIds.length < num
  · rw [if_pos hfew] at ha
    cases ha
    exact .nothing c s peer timing
  rw [if_neg hfew] at ha
  obtain ⟨⟨room, peer₁⟩, he, ha⟩ := bind_eq_some_iff.mp ha
  split_ifs at ha with hroom
  · cases ha
    exact ⟨timing, room, num, he, .inl rfl⟩
  split at ha
  · cases ha
    exact ⟨timing, room, num, he, .inl rfl⟩
  · next s₁ hs₁ =>
    cases ha
    exact ⟨timing, room, num, he, .inr ⟨by simpa using hroom, ho, _, _, hs₁, rfl⟩⟩

/-- **An allocation** keeps the invariant of the allocator and of its peer. -/
theorem Inv.allocates (h : Inv c s) (hp : PeerInv peer) (ha : Allocates c s peer s' peer') :
    Inv c s' ∧ PeerInv peer' ∧ peer'.map fst = peer.map fst := by
  obtain ⟨timing, room, n, he, ha⟩ := ha
  obtain ⟨hroom, hp₁, hcfg⟩ := ensureRoom_spec hp he
  obtain rfl | ⟨hr, ho, ids, s₁, hs₁, rfl⟩ := ha
  · exact ⟨h, hp₁, hcfg⟩
  · exact ⟨(h.allocOwner ho (h.le_freeVirtualIds ho (hroom hr)) hs₁).1, hp₁, hcfg⟩

/-- **`alloc_with_virtual`**, of a sub-pool that mirrors the ids of the owner. -/
theorem Inv.allocWithVirtual (h : Inv c s) (ho : c.isIdOwner = false)
    (hvs : vs.Nodup) (hfree : ∀ v ∈ vs, s.virtualToPhysical v = none)
    (ha : s.allocWithVirtual c peer vs = some s') : Inv c s' := by
  unfold MultiEndedAllocator.allocWithVirtual at ha
  split_ifs at ha with hnil
  · cases ha
    exact h
  obtain ⟨phys, wm', free', ht, rfl⟩ := allocBind_spec h.classes (length_pos_of_ne_nil hnil) ha
  refine h.bindTaken s.freeVirtualIds ht hvs rfl hfree fun ho' => ?_
  rw [ho] at ho'
  cases ho'

/-! ### Freeing -/

/-- What the callers of `free` owe: every page once, and bound. -/
def Freeable (c : AllocConfig) (s : MultiEndedAllocator) (tokens : List Nat) : Prop :=
  (tokenPages c tokens).Nodup ∧
    ∀ v ∈ tokenPages c tokens, v ≠ 0 ∧ s.virtualToPhysical v ≠ none

instance (tokens : List Nat) : Decidable (Freeable c s tokens) := by
  unfold Freeable; infer_instance

/-- Freed ids return to the owner. -/
theorem Ids.free (h : Ids c s) (hnd : vs.Nodup)
    (hvs : ∀ v ∈ vs, v ≠ 0 ∧ s.virtualToPhysical v ≠ none) (free : List Nat)
    (g : Nat → Option Nat) :
    Ids c { s with
      virtualToPhysical := wipe s.virtualToPhysical vs
      physicalToVirtual := g
      freeVirtualIds := s.freeVirtualIds ++ vs
      freePhysPages := free
      livePageCount := s.livePageCount - vs.length } := by
  have hrange : ∀ v ∈ vs, c.minPageIndex ≤ v ∧ v < c.numPages := by
    intro v hv
    obtain ⟨p, e⟩ := ne_none_iff_exists'.mp (hvs v hv).2
    exact (h.bound v p e).resolve_left (hvs v hv).1
  refine ⟨?_, fun v => ?_, fun v p hv => h.bound v p (wipe_eq_some_iff.mp hv).2, ?_⟩
  · refine nodup_append.mpr ⟨h.nodup, hnd, fun v hv w hw e => ?_⟩
    exact (hvs w hw).2 (e ▸ ((h.mem_iff v).mp hv).2.2)
  · have := h.mem_iff v
    simp only [mem_append, wipe]
    by_cases hv : v ∈ vs
    · simp [hv, hrange v hv]
    · simp [hv, this]
  · have := h.count
    simp only [length_append]
    omega

/-- **`_free_lazy`**: bound pages become holes. -/
theorem Inv.freeLazy (h : Inv c s) (hf : Freeable c s tokens) :
    ∃ s', s.freeLazy c tokens = some s' ∧ Inv c s' := by
  obtain ⟨hnd, hbound⟩ := hf
  obtain ⟨ps, hg⟩ := exists_gather fun v hv => (hbound v hv).2
  unfold MultiEndedAllocator.freeLazy
  simp only [hg, map_some]
  have hps : ps.Nodup := h.inverse.nodup_gather hnd hg
  have hlen := length_of_gather hg
  have hlive : ∀ p ∈ ps, p ≠ 0 ∧ s.physicalToVirtual p ≠ none := by
    intro p hp
    obtain ⟨v, hv, e⟩ := exists_of_mem_gather hg hp
    have e' := (h.inverse v p).mp e
    refine ⟨?_, by rw [e']; simp⟩
    rintro rfl
    rw [h.classes.sink] at e'
    cases e'
    exact (hbound 0 hv).1 rfl
  have hperm : (s.freePhysPages ++ s.pendingPages ++ ps).Perm
      (mergeSorted c (s.freePhysPages ++ ps) ++ s.pendingPages) := by
    refine perm_iff_count.mpr fun p => ?_
    have := (mergeSorted_perm c (s.freePhysPages ++ ps)).count_eq p
    simp only [count_append] at this ⊢
    omega
  refine ⟨_, rfl, (h.classes.unbind hps hlive).perm hperm, h.inverse.unbind hg, ?_, h.mirror,
    h.keys, fun ho => ?_⟩
  · have hcount := h.count
    have := hperm.length_eq
    simp only [length_append, pendingPages] at hcount this ⊢
    omega
  · have := (h.ids ho).free hnd hbound (mergeSorted c (s.freePhysPages ++ ps))
      (wipe s.physicalToVirtual ps)
    simp only [ho, if_true, ← hlen]
    exact this

/-- What `free` owes where it does not defer. -/
theorem Inv.free (h : Inv c s) (hf : s.isNotInFreeGroup → Freeable c s tokens) :
    ∃ s', s.free c tokens = some s' ∧ Inv c s' := by
  unfold MultiEndedAllocator.free
  split_ifs with hnil hgroup
  · exact ⟨s, rfl, h⟩
  · exact h.freeLazy (hf hgroup)
  · exact ⟨_, rfl, h.setForward s.isNotInFreeGroup _ s.latestForwardDoneEvent s.inflightForward⟩

theorem Inv.freeGroupEnd (h : Inv c s) (hf : Freeable c s s.freeGroup) :
    ∃ s', s.freeGroupEnd c = some s' ∧ Inv c s' :=
  (h.setForward true [] s.latestForwardDoneEvent s.inflightForward).free fun _ => hf

end MultiEndedAllocator

end SglangRuntime.MultiEnded
