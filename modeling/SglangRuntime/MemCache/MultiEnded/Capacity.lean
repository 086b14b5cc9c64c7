import SglangRuntime.MemCache.MultiEnded.Compaction
import Mathlib.Tactic.LinearCombination
import Mathlib.Tactic.Ring

/-!
# Memory cache — the room that two sub-pools share

Two sub-pools of a buffer grow towards each other, and what lies between their frontiers is the room
of both.  `gap` is the number of bytes between them, negative if they have crossed; it depends on a
sub-pool through the number of its pages alone (`gap_add_allocatedPages`).  An urgent flush packs a
sub-pool, so that all its holes become room for the peer (`urgentFlush_packs`); an allocation takes
what `available_size` has counted, which is always there (`allocBind_isSome`).
-/

namespace SglangRuntime.MultiEnded

open Foundation MultiEndedAllocator MultiEndedAllocator Option

/-! ### The gap -/

namespace AllocConfig

/-- One sub-pool grows up, the other down. -/
def Facing (c pc : AllocConfig) : Prop := c.growDirection ≠ pc.growDirection

/-- The byte at which a sub-pool ends on the side of its peer. -/
def frontier (c : AllocConfig) (wm : Nat) : Nat :=
  match c.growDirection with
  | .up => c.byteHighFrontier wm
  | .down => c.byteLowFrontier wm

/-- The bytes from the frontier of the sub-pool that grows up to that of the other one. -/
def gap (c pc : AllocConfig) (wm pwm : Nat) : Int :=
  match c.growDirection with
  | .up => (pc.frontier pwm : Int) - c.frontier wm
  | .down => (c.frontier wm : Int) - pc.frontier pwm

variable {c pc : AllocConfig} {wm wm' pwm : Nat}

theorem Facing.symm (h : Facing c pc) : Facing pc c := Ne.symm h

theorem Facing.gap_comm (h : Facing c pc) (wm pwm : Nat) : gap c pc wm pwm = gap pc c pwm wm := by
  unfold Facing at h
  unfold gap
  cases hc : c.growDirection <;> cases hp : pc.growDirection <;> simp_all

/-- A page more on one side is a page less in between. -/
theorem gap_add_allocatedPages (pc : AllocConfig) (pwm : Nat) (hok : c.WatermarkOk wm)
    (hok' : c.WatermarkOk wm') :
    gap c pc wm' pwm + (c.allocatedPages wm' * c.entryBytesPerPage : Nat) =
      gap c pc wm pwm + (c.allocatedPages wm * c.entryBytesPerPage : Nat) := by
  unfold WatermarkOk at hok hok'
  unfold gap frontier allocatedPages byteHighFrontier byteLowFrontier
  cases hd : c.growDirection with
  | up =>
    simp only [hd] at hok hok' ⊢
    obtain ⟨a, rfl⟩ := Nat.exists_eq_add_of_le hok.1
    obtain ⟨b, rfl⟩ := Nat.exists_eq_add_of_le hok'.1
    simp only [Nat.add_sub_cancel_left]
    push_cast
    ring
  | down =>
    simp only [hd] at hok hok' ⊢
    obtain ⟨a, ha⟩ := Nat.exists_eq_add_of_le hok.1
    obtain ⟨b, hb⟩ := Nat.exists_eq_add_of_le hok'.1
    have ea : c.numPages - 1 - wm = a := by omega
    have eb : c.numPages - 1 - wm' = b := by omega
    have hab : ((wm' + 1 + b : Nat) : Int) = (wm + 1 + a : Nat) := by rw [← ha, ← hb]
    rw [ea, eb]
    push_cast at hab ⊢
    linear_combination (c.entryBytesPerPage : Int) * hab

theorem Facing.currentGapBytes {s p : MultiEndedAllocator} (h : Facing c pc) :
    s.currentGapBytes c (some (pc, p)) = (gap c pc s.watermark p.watermark).toNat := by
  unfold Facing at h
  unfold MultiEndedAllocator.currentGapBytes gap frontier
  cases hc : c.growDirection <;> cases hp : pc.growDirection <;> simp_all

end AllocConfig

open AllocConfig

namespace MultiEndedAllocator

variable {c pc : AllocConfig} {s s' p : MultiEndedAllocator} {peer : Peer} {n : Nat}
  {timing : Timing}

/-! ### What a flush leaves alone -/

theorem commitMoveBatch_frame {moves : List (Nat × Nat)} {latest : Option Event}
    {fired : Event → Bool} {released : List Nat}
    (h : s.commitMoveBatch moves latest fired = some (s', released)) :
    s'.watermark = s.watermark ∧ s'.livePageCount = s.livePageCount ∧
      s'.freeVirtualIds = s.freeVirtualIds ∧ (latest = none → s'.pendingReuse = s.pendingReuse) ∧
      (moves = [] → s' = s ∧ released = []) := by
  rw [commitMoveBatch] at h
  split_ifs at h with hnil
  · cases h
    exact ⟨rfl, rfl, rfl, fun _ => rfl, fun _ => ⟨rfl, rfl⟩⟩
  obtain ⟨vs, -, h⟩ := map_eq_some_iff.mp h
  rcases hl : latest.filter fun e => !fired e with - | e
  · rw [hl] at h
    cases h
    exact ⟨rfl, rfl, rfl, fun _ => rfl, fun e => absurd e hnil⟩
  · rw [hl] at h
    cases h
    refine ⟨rfl, rfl, rfl, fun hnone => ?_, fun e => absurd e hnil⟩
    rw [hnone] at hl
    cases hl

theorem absorbFrom_allocatedPages_le (wm : Nat) (hs : List Nat) :
    c.allocatedPages (absorbFrom c wm hs).1 ≤ c.allocatedPages wm := by
  induction hs generalizing wm with
  | nil => exact Nat.le_refl _
  | cons h hs ih =>
    rw [absorbFrom]
    split_ifs
    · exact (ih _).trans (by rw [allocatedPages_retreat]; omega)
    · exact Nat.le_refl _

theorem prepareFlush_counts (s : MultiEndedAllocator) (timing : Timing) (urgent : Bool) :
    (s.prepareFlush c timing urgent).livePageCount = s.livePageCount ∧
      (s.prepareFlush c timing urgent).freeVirtualIds = s.freeVirtualIds ∧
      c.allocatedPages (s.prepareFlush c timing urgent).watermark ≤ c.allocatedPages s.watermark := by
  have hle := absorbFrom_allocatedPages_le (c := c) s.watermark
  simp only [prepareFlush, absorbBoundaryHoles, drainPendingReuse]
  split_ifs
  · exact ⟨rfl, rfl, hle _⟩
  · exact ⟨rfl, rfl, hle _⟩

/-- A flush changes neither the live pages nor the free ids, and it never grows. -/
theorem flush_frame {urgent : Bool} (h : s.flush c timing urgent = some s') :
    s'.livePageCount = s.livePageCount ∧ s'.freeVirtualIds = s.freeVirtualIds ∧
      c.allocatedPages s'.watermark ≤ c.allocatedPages s.watermark := by
  rw [flush] at h
  split_ifs at h with hgate
  · cases h
    exact ⟨rfl, rfl, Nat.le_refl _⟩
  obtain ⟨hlive, hids, hle⟩ := prepareFlush_counts (c := c) s timing urgent
  simp only at h
  by_cases hholes : (urgent && decide ((s.prepareFlush c timing urgent).freePhysPages ≠ []))
  · rw [if_pos hholes] at h
    obtain ⟨⟨s₁, released⟩, hc, rfl⟩ := map_eq_some_iff.mp h
    obtain ⟨h₁, h₂, h₃, -⟩ := commitMoveBatch_frame hc
    have hwm : s₁.watermark = (s.prepareFlush c timing urgent).watermark := by
      rw [h₁]
      split_ifs <;> rfl
    refine ⟨?_, ?_, ?_⟩
    · rw [fullPack, h₂]
      split_ifs <;> exact hlive
    · rw [fullPack, h₃]
      split_ifs <;> exact hids
    · rw [fullPack, allocatedPages_retreat, hwm]
      omega
  · rw [if_neg hholes] at h
    obtain ⟨⟨s₁, released⟩, hc, rfl⟩ := map_eq_some_iff.mp h
    obtain ⟨h₁, h₂, h₃, -⟩ := commitMoveBatch_frame hc
    simp only [partialPack, h₁, h₂, h₃]
    split_ifs <;> exact ⟨hlive, hids, hle⟩

/-! ### An urgent flush -/

/-- With the gate open an urgent flush leaves no hole and nothing pending. -/
theorem urgentFlush_empty (hgate : timing.moveGate)
    (h : s.flush c timing true = some s') : s'.freePhysPages = [] ∧ s'.pendingReuse = [] := by
  have hpend : (s.prepareFlush c timing true).pendingReuse = [] := by
    simpa using prepareFlush_pendingReuse (c := c) s timing true
  rw [flush, if_neg (by simp [hgate])] at h
  simp only [Bool.true_and] at h
  by_cases hholes : decide ((s.prepareFlush c timing true).freePhysPages ≠ [])
  · rw [if_pos hholes] at h
    obtain ⟨⟨s₁, released⟩, hc, rfl⟩ := map_eq_some_iff.mp h
    obtain ⟨-, -, -, h₄, -⟩ := commitMoveBatch_frame hc
    refine ⟨rfl, (h₄ rfl).trans ?_⟩
    split_ifs <;> exact hpend
  · rw [if_neg hholes] at h
    have hfree : (s.prepareFlush c timing true).freePhysPages = [] := by simpa using hholes
    have houtward : c.outward ([] : List Nat) = [] := by
      unfold AllocConfig.outward; cases c.growDirection <;> rfl
    have hmoves : (s.prepareFlush c timing true).flushMoves c timing true = [] := by
      simp only [flushMoves, hfree, houtward]
      rfl
    obtain ⟨⟨s₁, released⟩, hc, rfl⟩ := map_eq_some_iff.mp h
    obtain ⟨-, -, -, -, h₅⟩ := commitMoveBatch_frame hc
    obtain ⟨rfl, rfl⟩ := h₅ hmoves
    simp only [partialPack, hmoves, if_true]
    split_ifs
    · exact ⟨by simp [dropFired, hfree, houtward], hpend⟩
    · exact ⟨by simp [hfree, houtward], hpend⟩

/-- The pages of a sub-pool that has neither holes nor pending pages are the live ones. -/
theorem Inv.allocatedPages_eq (h : Inv c s) (hfree : s.freePhysPages = [])
    (hpend : s.pendingReuse = []) : (c.allocatedPages s.watermark : Int) = s.livePageCount := by
  have := h.count
  simpa [hfree, pendingPages, hpend] using this.symm

/-- **An urgent flush packs the band.**  No hole and no pending page is left, every page between the
anchored end and the watermark is live, and the gap that a peer sees, if the two have not crossed,
grows by the bytes of all former holes and pending pages. -/
theorem urgentFlush_packs (c : AllocConfig) (s : MultiEndedAllocator) (timing : Timing)
    (hinv : Inv c s) (hgate : timing.moveGate = true) :
    ∃ s', s.flush c timing true = some s' ∧ s'.freePhysPages = [] ∧ s'.pendingReuse = [] ∧
      s'.pendingReusePagesCpu = ∅ ∧ s'.livePageCount = s.livePageCount ∧
      (c.allocatedPages s'.watermark : Int) = s'.livePageCount ∧
      (∀ p, c.InBand s'.watermark p → s'.physicalToVirtual p ≠ none) ∧
      ∀ (pc : AllocConfig) (p : MultiEndedAllocator), Facing pc c →
        0 ≤ gap pc c p.watermark s.watermark →
        p.currentGapBytes pc (some (c, s')) = p.currentGapBytes pc (some (c, s)) +
          (s.freePhysPages ++ s.pendingPages).length * c.entryBytesPerPage := by
  obtain ⟨s', hflush, hinv'⟩ := hinv.flush timing true (by simp)
  obtain ⟨hfree, hpend⟩ := urgentFlush_empty hgate hflush
  obtain ⟨hlive, -⟩ := flush_frame hflush
  have hall := hinv'.allocatedPages_eq hfree hpend
  refine ⟨s', hflush, hfree, hpend, ?_, hlive, hall, fun p hp hnone => ?_, fun pc p hface hgap => ?_⟩
  · refine Finset.eq_empty_of_forall_notMem fun p hp => ?_
    have := (hinv'.mirror p).mp hp
    simp [pendingPages, hpend] at this
  · have := (hinv'.classes.mem_iff p).mpr ⟨hp, hnone⟩
    simp [hfree, pendingPages, hpend] at this
  · rw [hface.currentGapBytes, hface.currentGapBytes]
    rw [hface.gap_comm] at hgap ⊢
    rw [hface.gap_comm]
    have hmove := gap_add_allocatedPages pc p.watermark hinv.classes.ok hinv'.classes.ok
    have hcount := hinv.count
    have hpages : c.allocatedPages s.watermark =
        c.allocatedPages s'.watermark + (s.freePhysPages ++ s.pendingPages).length := by omega
    rw [hpages, Nat.add_mul] at hmove
    omega

end MultiEndedAllocator

/-- Four pages are bound and the first is freed: an urgent flush moves the last page there, and the
peer can use one page more. -/
theorem urgentFlush_packs_firstFreed : ∃ s s' : MultiEndedAllocator,
    s.freePhysPages = [1] ∧ s.flush (smallPools .first) (answering false) true = some s' ∧
      s'.freePhysPages = [] ∧
      (clear (smallPools .second)).currentGapBytes (smallPools .second)
          (some (smallPools .first, s')) =
        (clear (smallPools .second)).currentGapBytes (smallPools .second)
          (some (smallPools .first, s)) + 1 := by
  have hrun : ∃ P ∈ replay smallPools true (fun P st => ¬ P.Replaces smallPools st)
      [⟨.first, answering false, .alloc 4⟩, ⟨.first, answering false, .free [1]⟩]
      (Pool.clear smallPools),
        (P .first).freePhysPages = [1] ∧ (P .first).pendingReuse = [] ∧
        0 ≤ gap (smallPools .second) (smallPools .first)
          (clear (smallPools .second)).watermark (P .first).watermark := by
    decide +kernel
  obtain ⟨P, hP, hfree, hpend, hgap⟩ := hrun
  have hinv := PoolInv.run (fun i => inv_clear (smallPools i)) (Run.of_replay hP) .first
  obtain ⟨s', hflush, hfree', -, -, -, -, -, hpeer⟩ :=
    urgentFlush_packs (smallPools .first) (P .first) (answering false) hinv rfl
  have h := hpeer (smallPools .second) (.clear (smallPools .second)) (by unfold Facing; decide) hgap
  refine ⟨P .first, s', hfree, hflush, hfree', h.trans ?_⟩
  rw [hfree, pendingPages, hpend]
  rfl

namespace MultiEndedAllocator

variable {c pc : AllocConfig} {s s' p : MultiEndedAllocator} {peer : Peer} {n : Nat}

/-! ### What `available_size` counts is there -/

/-- The pages by which the watermark can advance. -/
def pagesExtend (c : AllocConfig) (s : MultiEndedAllocator) (peer : Peer) : Nat :=
  min (s.currentGapBytes c peer / c.entryBytesPerPage)
    (c.numPages - c.minPageIndex - c.allocatedPages s.watermark)

theorem le_pagesExtend_of_available (h : n * c.pageSize ≤ s.availableSize c peer) :
    n - s.freePhysPages.length ≤ pagesExtend c s peer := by
  have : n ≤ pagesExtend c s peer + s.freePhysPages.length :=
    Nat.le_of_mul_le_mul_right h c.pageSize_pos
  omega

theorem extendWatermark_isSome (hok : c.WatermarkOk s.watermark) (hn : 0 < n)
    (hroom : n ≤ pagesExtend c s peer) : ∃ s', s.extendWatermark c peer n = some s' := by
  obtain ⟨hbytes, hindex⟩ := Nat.le_min.mp hroom
  have he : 0 < c.entryBytesPerPage := by
    by_contra h0
    rw [Nat.eq_zero_of_not_pos h0, Nat.div_zero] at hbytes
    omega
  have hmul := (Nat.le_div_iff_mul_le he).mp hbytes
  have hpos := Nat.mul_pos hn he
  unfold WatermarkOk at hok
  cases hd : c.growDirection with
  | up =>
    simp only [allocatedPages, hd] at hindex
    simp only [extendWatermark, hd]
    rw [if_neg (by omega)]
    refine ⟨_, if_neg ?_⟩
    rcases peer with - | ⟨pc, p⟩
    · simp
    simp only [currentGapBytes, byteHighFrontier, hd] at hmul
    have hle : s.watermark + n ≤ pc.byteLowFrontier p.watermark / c.entryBytesPerPage := by
      rw [Nat.le_div_iff_mul_le he, Nat.add_mul]
      omega
    simpa using hle
  | down =>
    simp only [hd] at hok
    simp only [allocatedPages, hd] at hindex
    simp only [extendWatermark, hd]
    rw [if_neg (by omega)]
    refine ⟨_, if_neg ?_⟩
    rcases peer with - | ⟨pc, p⟩
    · simp
    simp only [currentGapBytes, byteLowFrontier, hd] at hmul
    obtain ⟨k, hk⟩ : ∃ k, s.watermark + 1 = k + n := ⟨s.watermark + 1 - n, by omega⟩
    rw [hk, Nat.add_mul] at hmul
    have hle : pc.byteHighFrontier p.watermark / c.entryBytesPerPage ≤ k :=
      Nat.div_le_of_le_mul (by rw [Nat.mul_comm]; omega)
    have : pc.byteHighFrontier p.watermark / c.entryBytesPerPage ≤ s.watermark - n + 1 := by omega
    simpa using this

/-- Whatever `available_size` counts can be bound. -/
theorem allocBind_isSome (hok : c.WatermarkOk s.watermark)
    (hroom : n - s.freePhysPages.length ≤ pagesExtend c s peer) (vs : List Nat) :
    ∃ s', s.allocBindFastOrSlow c peer vs n = some s' := by
  unfold allocBindFastOrSlow
  split_ifs with h0 hfree
  · exact ⟨s, rfl⟩
  · rw [hfree, List.length_nil, Nat.sub_zero] at hroom
    obtain ⟨s', he⟩ := extendWatermark_isSome hok (Nat.pos_of_ne_zero h0) hroom
    exact ⟨_, by rw [he]; rfl⟩
  · have hmore : n - min n s.freePhysPages.length = n - s.freePhysPages.length := by omega
    simp only [takePhysical, hmore]
    by_cases hdrain : n - s.freePhysPages.length = 0
    · exact ⟨_, by rw [if_pos hdrain]; rfl⟩
    · obtain ⟨s', he⟩ := extendWatermark_isSome hok (Nat.pos_of_ne_zero hdrain) hroom
      exact ⟨_, by rw [if_neg hdrain, he]; rfl⟩

/-- The pages are there, at once or after an urgent flush of the peer. -/
def HasRoom (c : AllocConfig) (s : MultiEndedAllocator) (peer : Peer) (timing : Timing) (n : Nat) :
    Prop :=
  n * c.pageSize ≤ s.availableSize c peer ∨
    ∃ pc p p', peer = some (pc, p) ∧ p.flush pc timing true = some p' ∧
      n * c.pageSize ≤ s.availableSize c (some (pc, p'))

/-- A peer that may have been flushed: the same ids are free, the same are bound and as many pages
are live. -/
def SamePages (peer peer' : Peer) : Prop :=
  match peer, peer' with
  | none, none => True
  | some (pc, p), some (pc', p') =>
    pc' = pc ∧ p'.livePageCount = p.livePageCount ∧ p'.freeVirtualIds = p.freeVirtualIds ∧
      ∀ v, p'.virtualToPhysical v ≠ none ↔ p.virtualToPhysical v ≠ none
  | _, _ => False

theorem SamePages.refl (peer : Peer) : SamePages peer peer := by
  rcases peer with - | ⟨pc, p⟩
  · trivial
  · exact ⟨rfl, rfl, rfl, fun _ => Iff.rfl⟩

/-- The capacity check never raises, and it finds the room there is. -/
theorem ensureRoom_isSome (hp : PeerInv peer) (timing : Timing) (n : Nat) :
    ∃ room peer', s.ensureRoom c peer timing (n * c.pageSize) = some (room, peer') ∧
      SamePages peer peer' ∧ (room ↔ HasRoom c s peer timing n) ∧
      (room → n * c.pageSize ≤ s.availableSize c peer') := by
  unfold ensureRoom
  by_cases hnow : n * c.pageSize ≤ s.availableSize c peer
  · rw [if_pos hnow]
    exact ⟨true, peer, rfl, .refl peer, iff_of_true rfl (.inl hnow), fun _ => hnow⟩
  rw [if_neg hnow]
  rcases peer with - | ⟨pc, p⟩
  · refine ⟨false, none, rfl, trivial, iff_of_false (by simp) ?_, by simp⟩
    rintro (h | ⟨_, _, _, h, -⟩)
    · exact hnow h
    · cases h
  obtain ⟨p', hflush, hinvisible⟩ := flush_invisible (hp pc p rfl) (id : Nat → Nat) timing true
  obtain ⟨hlive, hids, -⟩ := flush_frame hflush
  refine ⟨decide (n * c.pageSize ≤ s.availableSize c (some (pc, p'))), some (pc, p'),
    by simp only [hflush, map_some], ⟨rfl, hlive, hids, fun v => ?_⟩, ?_, ?_⟩
  · simpa using hinvisible.bound v
  · rw [decide_eq_true_iff]
    constructor
    · exact fun h => .inr ⟨pc, p, p', rfl, hflush, h⟩
    rintro (h | ⟨_, _, p'', e, hf, h⟩)
    · exact absurd h hnow
    · cases e
      cases hflush.symm.trans hf
      exact h
  · exact fun h => of_decide_eq_true h

/-! ### `alloc_extend` and `alloc_decode` -/

/-- What a paged allocation of `num` pages does, of which `look` ids must be in the list of a sorting
allocator. -/
structure AllOrNothing (c : AllocConfig) (s : MultiEndedAllocator) (peer : Peer) (timing : Timing)
    (num look : Nat) (r : Option (Bool × MultiEndedAllocator × Peer)) : Prop where
  raises_iff : r = none ↔ c.needSort ∧ s.freeVirtualIds.length < look ∧
    num ≤ s.freeVirtualIds.length ∧ HasRoom c s peer timing num
  peer_same : ∀ ok s' peer', r = some (ok, s', peer') → SamePages peer peer'
  shortfall : ∀ s' peer', r = some (false, s', peer') →
    (s.freeVirtualIds.length < num ∨ ¬ HasRoom c s peer timing num) ∧ s' = s
  granted : ∀ s' peer', r = some (true, s', peer') → ∃ phys : List Nat,
    phys.length = num ∧ phys.Nodup ∧ (∀ p ∈ phys, s.physicalToVirtual p = none) ∧
      num ≤ s.freeVirtualIds.length ∧ s'.freeVirtualIds = s.freeVirtualIds.drop num ∧
      s'.livePageCount = s.livePageCount + num ∧
      ∀ v p, (v, p) ∈ (s.freeVirtualIds.take num).zip phys → s'.virtualToPhysical v = some p

theorem Inv.allocBind_bound (h : Inv c s) (hn : n ≤ s.freeVirtualIds.length) (ho : c.isIdOwner)
    (ha : s.allocBindFastOrSlow c peer (s.freeVirtualIds.take n) n = some s') :
    ∃ phys : List Nat, phys.length = n ∧ phys.Nodup ∧ (∀ p ∈ phys, s.physicalToVirtual p = none) ∧
      s'.livePageCount = s.livePageCount + n ∧
      ∀ v p, (v, p) ∈ (s.freeVirtualIds.take n).zip phys → s'.virtualToPhysical v = some p := by
  rcases Nat.eq_zero_or_pos n with rfl | hpos
  · cases ha
    exact ⟨[], rfl, List.nodup_nil, by simp, by simp, by simp⟩
  obtain ⟨phys, wm', free', ht, rfl⟩ := allocBind_spec h.classes hpos ha
  refine ⟨phys, ht.length, (List.nodup_append.mp ht.classes.nodup).1, fun p hp => ?_, rfl,
    fun v p hz => ?_⟩
  · exact ((ht.classes.mem_iff p).mp (List.mem_append_left _ hp)).2
  · have hlen : (s.freeVirtualIds.take n).length = phys.length := by
      rw [List.length_take, ht.length]
      omega
    exact (scatter_eq_some_iff ((h.ids ho).nodup.sublist (List.take_sublist _ _)) hlen).mpr (.inl hz)

theorem Inv.pagedAllOrNothing (h : Inv c s) (hp : PeerInv peer) (ho : c.isIdOwner)
    (timing : Timing) (num look : Nat) :
    AllOrNothing c s peer timing num look (s.allocPaged c peer timing num look) := by
  obtain ⟨room, peer', he, hsame, hiff, havail⟩ :=
    ensureRoom_isSome (c := c) (s := s) hp timing num
  unfold allocPaged
  simp only [ho, Bool.not_true, Bool.false_eq_true, if_false]
  by_cases hfew : s.freeVirtualIds.length < num
  · rw [if_pos hfew]
    refine ⟨iff_of_false (by simp) fun hr => by omega, ?_, ?_, ?_⟩
    · rintro _ _ _ ⟨⟩
      exact .refl peer
    · rintro _ _ ⟨⟩
      exact ⟨.inl hfew, rfl⟩
    · rintro _ _ ⟨⟩
  rw [if_neg hfew, he, bind_some]
  cases room with
  | false =>
    have hno : ¬ HasRoom c s peer timing num := fun hr => by simpa using hiff.mpr hr
    refine ⟨iff_of_false (by simp) fun hr => hno hr.2.2.2, ?_, ?_, ?_⟩
    · rintro _ _ _ ⟨⟩
      exact hsame
    · rintro _ _ ⟨⟩
      exact ⟨.inr hno, rfl⟩
    · rintro _ _ ⟨⟩
  | true =>
    have hroom := hiff.mp rfl
    obtain ⟨s₁, hs₁⟩ := allocBind_isSome h.classes.ok (le_pagesExtend_of_available (havail rfl))
      (s.freeVirtualIds.take num)
    by_cases hsort : (c.needSort && decide (s.freeVirtualIds.length < look))
    · rw [if_pos hsort]
      rw [Bool.and_eq_true, decide_eq_true_iff] at hsort
      refine ⟨iff_of_true rfl ⟨hsort.1, hsort.2, by omega, hroom⟩, ?_, ?_, ?_⟩ <;> rintro _ _ <;> simp
    rw [if_neg hsort, hs₁]
    rw [Bool.and_eq_true, decide_eq_true_iff] at hsort
    refine ⟨iff_of_false (by simp) fun hr => hsort ⟨hr.1, hr.2.1⟩, ?_, ?_, ?_⟩
    · rintro _ _ _ ⟨⟩
      exact hsame
    · rintro _ _ ⟨⟩
    · rintro _ _ ⟨⟩
      obtain ⟨phys, h₁, h₂, h₃, h₄, h₅⟩ := h.allocBind_bound (Nat.le_of_not_lt hfew) ho hs₁
      exact ⟨phys, h₁, h₂, h₃, Nat.le_of_not_lt hfew, rfl, h₄, h₅⟩

end MultiEndedAllocator

/-- **Paged allocation is all or nothing**, in every state of a run in which no flush replaces a
pending entry: `alloc_extend` and `alloc_decode` raise exactly when a sorting allocator that has the
ids and the pages looks for more ids than it has, since `merge_and_sort_free` has no lists here. -/
theorem allocPaged_allOrNothing {cfg : Side → AllocConfig} {peered : Bool} {P : Pool}
    (hrun : Run cfg peered (fun P st => ¬ P.Replaces cfg st) (Pool.clear cfg) P) (i : Side)
    (ho : (cfg i).isIdOwner = true) (timing : Timing) (numNewPages extendNumTokens bs : Nat) :
    AllOrNothing (cfg i) (P i) (P.peer cfg peered i) timing numNewPages
        (extendNumTokens / (cfg i).pageSize + bs + 1)
        ((P i).allocExtend (cfg i) (P.peer cfg peered i) timing numNewPages extendNumTokens bs) ∧
      AllOrNothing (cfg i) (P i) (P.peer cfg peered i) timing numNewPages bs
        ((P i).allocDecode (cfg i) (P.peer cfg peered i) timing numNewPages bs) := by
  have hinv := PoolInv.run (fun i => inv_clear (cfg i)) hrun
  exact ⟨(hinv i).pagedAllOrNothing (hinv.peer i) ho timing _ _,
    (hinv i).pagedAllOrNothing (hinv.peer i) ho timing _ _⟩

/-- With two pages bound, the five that are left are granted to one request. -/
theorem allocPaged_allOrNothing_fiveLeft : ∃ P : Pool, ∃ s' peer',
    (P .first).allocExtend (smallPools .first) (P.peer smallPools true .first) (answering false)
        5 5 1 = some (true, s', peer') ∧ s'.freeVirtualIds = [] := by
  have hrun : ∃ P ∈ replay smallPools true (fun P st => ¬ P.Replaces smallPools st)
      [⟨.first, answering false, .alloc 2⟩] (Pool.clear smallPools),
        (P .first).freeVirtualIds = [3, 4, 5, 6, 7] ∧
        ((P .first).allocExtend (smallPools .first) (P.peer smallPools true .first)
          (answering false) 5 5 1).any (fun r => r.1) = true := by
    decide +kernel
  obtain ⟨P, hP, hids, hr⟩ := hrun
  obtain ⟨⟨ok, s', peer'⟩, hr, hok⟩ := (any_eq_true _ _).mp hr
  obtain rfl : ok = true := hok
  obtain ⟨phys, -, -, -, -, hfree, -⟩ :=
    (allocPaged_allOrNothing (Run.of_replay hP) .first rfl (answering false) 5 5 1).1.granted _ _ hr
  exact ⟨P, s', peer', hr, by rw [hfree, hids]; rfl⟩

/-- The same pools with a sorting allocator. -/
def sortingPools (i : Side) : AllocConfig := { smallPools i with needSort := true }

/-- A request for all the seven free pages, which are there, raises. -/
theorem allocExtend_raises : (Pool.clear sortingPools .first).allocExtend (sortingPools .first)
        ((Pool.clear sortingPools).peer sortingPools true .first) (answering false) 7 7 1 = none ∧
      (Pool.clear sortingPools .first).freeVirtualIds.length = 7 ∧
      (Pool.clear sortingPools .first).availableSize (sortingPools .first)
        ((Pool.clear sortingPools).peer sortingPools true .first) = 7 := by
  refine ⟨?_, by decide, by decide⟩
  exact isNone_iff_eq_none.mp (by decide +kernel)

end SglangRuntime.MultiEnded
