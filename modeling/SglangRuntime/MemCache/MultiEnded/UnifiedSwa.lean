import Mathlib
import SglangRuntime.MemCache.MultiEnded.Capacity

/-!
# Memory cache — `UnifiedSWATokenToKVPoolAllocator`

The composite over a full sub-pool, which owns the virtual ids, and a sliding-window sub-pool, which
binds the same ids.  Its `available_size` counts the pages that both sides can take together: first
from the holes of both, then from the holes of one while the other extends, then from the gap.

* `Apart.run`: the two sub-pools never cross, as long as whoever calls `alloc_with_virtual` has
  checked the room.
* `credited_realizable`: what `schedulable_available_size` and the joint `available_size` promise can
  be allocated, the latter as long as the ids of the full side fit into the table of the other side.
-/

namespace SglangRuntime.MultiEnded

open Foundation MultiEndedAllocator AllocConfig List Option MultiEndedAllocator

/-! ### The sub-pools never cross -/

section

variable {c pc : AllocConfig} {s s' p : MultiEndedAllocator} {peer peer' : Peer} {n : Nat}

namespace MultiEndedAllocator

theorem allocBind_allocatedPages (hok : c.WatermarkOk s.watermark) {vs : List Nat}
    (h : s.allocBindFastOrSlow c peer vs n = some s') : c.WatermarkOk s'.watermark ∧
      c.allocatedPages s'.watermark =
        c.allocatedPages s.watermark + (n - s.freePhysPages.length) := by
  -- an extension by `k` pages, whatever happens to the other fields
  have hext {k : Nat} {s₁ : MultiEndedAllocator} (hk : 0 < k)
      (he : s.extendWatermark c peer k = some s₁) : c.WatermarkOk s₁.watermark ∧
        c.allocatedPages s₁.watermark = c.allocatedPages s.watermark + k := by
    obtain ⟨-, hspec, hlen⟩ := extendWatermark_spec hok hk he
    exact ⟨hspec.ok, by rw [hspec.count, hlen]⟩
  unfold allocBindFastOrSlow at h
  split_ifs at h with h0 hfree
  · cases h
    exact ⟨hok, by omega⟩
  · obtain ⟨s₁, he, rfl⟩ := map_eq_some_iff.mp h
    obtain ⟨h₁, h₂⟩ := hext (Nat.pos_of_ne_zero h0) he
    exact ⟨h₁, by rw [hfree]; exact h₂⟩
  · obtain ⟨⟨phys, s₁⟩, ht, rfl⟩ := map_eq_some_iff.mp h
    have hmore : n - min n s.freePhysPages.length = n - s.freePhysPages.length := by omega
    simp only [takePhysical, hmore] at ht
    obtain ⟨s₂, he, ht⟩ := map_eq_some_iff.mp ht
    cases ht
    by_cases hdrain : n - s.freePhysPages.length = 0
    · rw [if_pos hdrain] at he
      cases he
      exact ⟨hok, by rw [hdrain]; rfl⟩
    · rw [if_neg hdrain] at he
      obtain ⟨hok', hpages⟩ := hext (Nat.pos_of_ne_zero hdrain) he
      exact ⟨hok', hpages⟩

end MultiEndedAllocator

/-- The sub-pool and its peer have not crossed.  Where the reserved pages alone overlap nothing is
ever allocated. -/
def ApartFrom (c : AllocConfig) (wm : Nat) (peer : Peer) : Prop :=
  ∀ pc p, peer = some (pc, p) → Facing c pc ∧
    (0 ≤ gap c pc wm p.watermark ∨
      c.allocatedPages wm = 0 ∧ pc.allocatedPages p.watermark = 0)

/-- An allocation within the room keeps apart from the peer. -/
theorem ApartFrom.allocBind (h : ApartFrom c s.watermark peer) (hok : c.WatermarkOk s.watermark)
    (hroom : n - s.freePhysPages.length ≤ pagesExtend c s peer) {vs : List Nat}
    (ha : s.allocBindFastOrSlow c peer vs n = some s') : ApartFrom c s'.watermark peer := by
  rintro pc p rfl
  obtain ⟨hok', hpages⟩ := allocBind_allocatedPages hok ha
  obtain ⟨hface, hapart⟩ := h pc p rfl
  obtain ⟨hbytes, -⟩ := Nat.le_min.mp hroom
  rw [hface.currentGapBytes] at hbytes
  refine ⟨hface, ?_⟩
  by_cases hgap : 0 ≤ gap c pc s.watermark p.watermark
  · have hmove := gap_add_allocatedPages pc p.watermark hok hok'
    have hbytes := (Nat.mul_le_mul_right c.entryBytesPerPage hbytes).trans (Nat.div_mul_le_self _ _)
    rw [hpages, Nat.add_mul] at hmove
    exact .inl (by omega)
  · rw [Int.toNat_of_nonpos (by omega), Nat.zero_div] at hbytes
    obtain ⟨h₁, h₂⟩ := hapart.resolve_left hgap
    exact .inr ⟨by omega, h₂⟩

/-- A peer that shrinks stays apart. -/
theorem ApartFrom.shrink (h : ApartFrom c s.watermark (some (pc, p)))
    {p' : MultiEndedAllocator} (hok : pc.WatermarkOk p.watermark)
    (hok' : pc.WatermarkOk p'.watermark)
    (hle : pc.allocatedPages p'.watermark ≤ pc.allocatedPages p.watermark) :
    ApartFrom c s.watermark (some (pc, p')) := by
  obtain ⟨hface, hapart⟩ := h pc p rfl
  rintro _ _ ⟨⟩
  refine ⟨hface, hapart.imp (fun hgap => ?_) fun h => ⟨h.1, by omega⟩⟩
  have hmove := gap_add_allocatedPages c s.watermark hok hok'
  have hbytes := Nat.mul_le_mul_right pc.entryBytesPerPage hle
  rw [hface.gap_comm] at hgap ⊢
  omega

/-- The capacity check keeps the two apart, and what it grants is in the room of the flushed peer. -/
theorem ApartFrom.ensureRoom (h : ApartFrom c s.watermark peer) (hp : PeerInv peer)
    {timing : Timing} {need : Nat} {room : Bool}
    (he : s.ensureRoom c peer timing need = some (room, peer')) :
    ApartFrom c s.watermark peer' ∧ (room → need ≤ s.availableSize c peer') := by
  refine ⟨?_, (ensureRoom_spec hp he).1⟩
  unfold MultiEndedAllocator.ensureRoom at he
  split_ifs at he
  · cases he
    exact h
  rcases peer with - | ⟨pc, p⟩
  · cases he
    exact h
  obtain ⟨p', hf, he⟩ := map_eq_some_iff.mp he
  cases he
  obtain ⟨p'', hf', hinv'⟩ := (hp pc p rfl).flush timing true (by simp)
  cases hf.symm.trans hf'
  exact h.shrink (hp pc p rfl).classes.ok hinv'.classes.ok (flush_frame hf).2.2

theorem ApartFrom.allocates (h : ApartFrom c s.watermark peer) (hinv : Inv c s) (hp : PeerInv peer)
    (ha : Allocates c s peer s' peer') : ApartFrom c s'.watermark peer' := by
  obtain ⟨timing, room, n, he, ha⟩ := ha
  obtain ⟨h₁, hroom⟩ := h.ensureRoom hp he
  obtain rfl | ⟨hr, -, ids, s₁, hs₁, rfl⟩ := ha
  · exact h₁
  · have hgrown : ApartFrom c s₁.watermark peer' :=
      h₁.allocBind (s := { s with freeVirtualIds := ids }) hinv.classes.ok
        (le_pagesExtend_of_available (hroom hr)) hs₁
    exact hgrown

theorem watermark_free {tokens : List Nat} (h : s.free c tokens = some s') :
    s'.watermark = s.watermark := by
  rw [free] at h
  split_ifs at h
  · cases h
    rfl
  · obtain ⟨ps, -, rfl⟩ := map_eq_some_iff.mp h
    rfl
  · cases h
    rfl

end

/-! ### Runs -/

section

variable {cfg : Side → AllocConfig} {P Q : Pool} {s p : MultiEndedAllocator} {i : Side}

/-- The two sub-pools have not crossed. -/
def Apart (cfg : Side → AllocConfig) (P : Pool) : Prop :=
  ApartFrom (cfg .first) (P .first).watermark (P.peer cfg true .first)

/-- Who calls `alloc_with_virtual` has checked the room. -/
def Pool.Roomy (cfg : Side → AllocConfig) (P : Pool) (st : Step) : Prop :=
  match st.op with
  | .allocWithVirtual vs =>
    vs.length * (cfg st.side).pageSize ≤
      (P st.side).availableSize (cfg st.side) (P.peer cfg true st.side)
  | _ => True

instance (P : Pool) : (st : Step) → Decidable (P.Roomy cfg st)
  | ⟨_, _, .allocWithVirtual _⟩ => inferInstanceAs (Decidable (_ ≤ _))
  | ⟨_, _, .alloc _⟩ | ⟨_, _, .allocExtend ..⟩ | ⟨_, _, .allocDecode ..⟩ | ⟨_, _, .free _⟩
  | ⟨_, _, .freeGroupBegin⟩ | ⟨_, _, .freeGroupEnd⟩ | ⟨_, _, .flush _⟩ | ⟨_, _, .flushOpportunistic⟩
  | ⟨_, _, .maybeDrainPendingReuse⟩ | ⟨_, _, .setLatestForwardDoneEvent _⟩
  | ⟨_, _, .setInflightForward ..⟩ => inferInstanceAs (Decidable True)

theorem ApartFrom.swap {c pc : AllocConfig}
    (h : ApartFrom c s.watermark (some (pc, p))) : ApartFrom pc p.watermark (some (c, s)) := by
  obtain ⟨hface, hapart⟩ := h pc p rfl
  rintro _ _ ⟨⟩
  exact ⟨hface.symm, by rw [hface.symm.gap_comm]; exact hapart.imp id And.symm⟩

theorem apart_iff (i : Side) :
    Apart cfg P ↔ ApartFrom (cfg i) (P i).watermark (P.peer cfg true i) := by
  cases i with
  | first => exact Iff.rfl
  | second => exact ⟨ApartFrom.swap, ApartFrom.swap⟩

/-- The state after an operation on side `i` is apart if the side is apart from its peer. -/
theorem Apart.put (h : ApartFrom (cfg i) s.watermark (some (cfg i.other, p))) :
    Apart cfg (P.put i s (some (cfg i.other, p))) := by
  refine (apart_iff i).mpr ?_
  have hother : i.other ≠ i := by cases i <;> simp [Side.other]
  unfold Pool.peer
  rw [if_pos rfl, P.put_of_ne hother]
  unfold Pool.put
  rw [Function.update_self]
  exact h

/-- An operation that does not touch the peer and does not grow. -/
theorem Apart.put_none (h : Apart cfg P) (hok : (cfg i).WatermarkOk (P i).watermark)
    (hok' : (cfg i).WatermarkOk s.watermark)
    (hle : (cfg i).allocatedPages s.watermark ≤ (cfg i).allocatedPages (P i).watermark) :
    Apart cfg (P.put i s none) := by
  have h := (apart_iff i).mp h
  obtain ⟨hface, hapart⟩ := h _ _ rfl
  have hput : P.put i s none = P.put i s (some (cfg i.other, P i.other)) := by
    unfold Pool.put
    simp
  rw [hput]
  refine .put ?_
  rintro _ _ ⟨⟩
  refine ⟨hface, hapart.imp (fun hgap => ?_) fun h => ⟨by omega, h.2⟩⟩
  have hmove := gap_add_allocatedPages (cfg i.other) (P i.other).watermark hok hok'
  have hbytes := Nat.mul_le_mul_right (cfg i).entryBytesPerPage hle
  omega

theorem Apart.step (h : Apart cfg P)
    (hinv : PoolInv cfg P) {st : Step} (ho : P.Owed cfg st) (hr : ¬ P.Replaces cfg st)
    (hroom : P.Roomy cfg st) (hs : P.step cfg true st = some Q) : Apart cfg Q := by
  have hinvQ := hinv.step ho hr hs
  obtain ⟨i, timing, op⟩ := st
  have hi := (apart_iff i).mp h
  have hp : PeerInv (P.peer cfg true i) := hinv.peer i
  have hself (s : MultiEndedAllocator) (peer : Peer) : P.put i s peer i = s := by
    unfold Pool.put; exact Function.update_self ..
  -- an operation that answers with a peer, and one that does not
  have grow {s : MultiEndedAllocator} {peer : Peer}
      (ha : Allocates (cfg i) (P i) (some (cfg i.other, P i.other)) s peer) :
      Apart cfg (P.put i s peer) := by
    have hcfg := ((hinv i).allocates hp ha).2.2
    have ha := hi.allocates (hinv i) hp ha
    rcases peer with - | ⟨pc, p⟩
    · cases hcfg
    · cases hcfg
      exact .put ha
  have stay {s : MultiEndedAllocator} (e : P.put i s none = Q)
      (hle : (cfg i).allocatedPages s.watermark ≤ (cfg i).allocatedPages (P i).watermark) :
      Apart cfg Q := by
    have hok := (hinvQ i).classes.ok
    rw [← e, hself] at hok
    exact e ▸ h.put_none (hinv i).classes.ok hok hle
  cases op with
  | alloc n =>
    obtain ⟨⟨r, s, peer⟩, ha, rfl⟩ := map_eq_some_iff.mp hs
    exact grow ((hinv i).alloc_allocates hp ha)
  | allocExtend num ext bs =>
    obtain ⟨⟨r, s, peer⟩, ha, rfl⟩ := map_eq_some_iff.mp hs
    exact grow (allocPaged_allocates ha)
  | allocDecode num bs =>
    obtain ⟨⟨r, s, peer⟩, ha, rfl⟩ := map_eq_some_iff.mp hs
    exact grow (allocPaged_allocates ha)
  | allocWithVirtual vs =>
    obtain ⟨s, ha, rfl⟩ := map_eq_some_iff.mp hs
    have hput : P.put i s none = P.put i s (some (cfg i.other, P i.other)) := by
      unfold Pool.put
      simp
    rw [hput]
    refine .put ?_
    unfold allocWithVirtual at ha
    split_ifs at ha
    · cases ha
      exact hi
    · exact hi.allocBind (hinv i).classes.ok (le_pagesExtend_of_available hroom) ha
  | free tokens =>
    obtain ⟨s, ha, e⟩ := map_eq_some_iff.mp hs
    exact stay e (by rw [watermark_free ha])
  | freeGroupEnd =>
    obtain ⟨s, ha, e⟩ := map_eq_some_iff.mp hs
    exact stay e (by rw [watermark_free ha])
  | flush urgent =>
    obtain ⟨s, ha, e⟩ := map_eq_some_iff.mp hs
    exact stay e (flush_frame ha).2.2
  | flushOpportunistic =>
    obtain ⟨s, ha, e⟩ := map_eq_some_iff.mp hs
    refine stay e ?_
    unfold flushOpportunistic at ha
    split_ifs at ha
    · cases ha
      exact Nat.le_refl _
    · exact (flush_frame ha).2.2
  | maybeDrainPendingReuse =>
    refine stay (Option.some.inj hs) (Nat.le_of_eq ?_)
    unfold drainPendingReuse
    simp only
    split_ifs <;> rfl
  | freeGroupBegin | setLatestForwardDoneEvent _ | setInflightForward _ _ =>
    exact stay (Option.some.inj hs) (Nat.le_refl _)

/-- A step that neither replaces a pending entry nor binds ids without room. -/
def Pool.Kept (cfg : Side → AllocConfig) (P : Pool) (st : Step) : Prop :=
  ¬ P.Replaces cfg st ∧ P.Roomy cfg st

instance (P : Pool) (st : Step) : Decidable (P.Kept cfg st) :=
  inferInstanceAs (Decidable (_ ∧ _))

/-- **The two sub-pools never cross.** -/
theorem Apart.run (hface : Facing (cfg .first) (cfg .second))
    (hrun : Run cfg true (Pool.Kept cfg) (Pool.clear cfg) P) : PoolInv cfg P ∧ Apart cfg P := by
  induction hrun with
  | refl =>
    refine ⟨fun i => inv_clear (cfg i), ?_⟩
    rintro _ _ ⟨⟩
    exact ⟨hface, .inr ⟨(cfg .first).allocatedPages_start, (cfg .second).allocatedPages_start⟩⟩
  | tail _ ho hok hs ih => exact ⟨ih.1.step ho hok.1 hs, ih.2.step ih.1 ho hok.1 hok.2 hs⟩

end

/-! ### What one sub-pool can allocate after a flush of its peer -/

namespace MultiEndedAllocator

/-- `_peer_drainable_hole_bytes`. -/
def peerDrainableHoleBytes (timing : Timing) : Peer → Nat
  | none => 0
  | some (pc, p) =>
    if !timing.moveGate then 0 else p.freePhysPages.length * pc.entryBytesPerPage

/-- `schedulable_available_size`. -/
def schedulableAvailableSize (c : AllocConfig) (s : MultiEndedAllocator) (peer : Peer)
    (timing : Timing) : Nat :=
  (min ((s.currentGapBytes c peer + peerDrainableHoleBytes timing peer) / c.entryBytesPerPage)
      (c.numPages - c.minPageIndex - c.allocatedPages s.watermark) +
    s.freePhysPages.length) * c.pageSize

section

variable {c pc : AllocConfig} {s s' p : MultiEndedAllocator} {peer : Peer} {n : Nat}
  {timing : Timing}

/-- The tokens of virtual pages. -/
def pageTokens (c : AllocConfig) (vPages : List Nat) : List Nat :=
  vPages.flatMap fun v => (List.range c.pageSize).map (v * c.pageSize + ·)

theorem length_pageTokens (vPages : List Nat) :
    (pageTokens c vPages).length = vPages.length * c.pageSize := by
  simp [pageTokens, length_flatMap]

/-- A sub-pool without pages has no holes. -/
theorem Inv.freePhysPages_eq_nil (h : Inv c s) (h0 : c.allocatedPages s.watermark = 0) :
    s.freePhysPages = [] := by
  rw [eq_nil_iff_forall_not_mem]
  intro q hq
  have hband := ((h.classes.mem_iff q).mp (mem_append_left _ hq)).1
  unfold AllocConfig.InBand at hband
  unfold AllocConfig.allocatedPages at h0
  cases hd : c.growDirection <;> simp only [hd] at hband h0 <;> omega

/-- The holes of the peer are room after its urgent flush. -/
theorem Inv.hasRoom_of_credited (hp : Inv pc p) (hap : ApartFrom c s.watermark (some (pc, p))) (hgate : timing.moveGate)
    (hle : n * c.pageSize ≤ s.schedulableAvailableSize c (some (pc, p)) timing) :
    HasRoom c s (some (pc, p)) timing n := by
  obtain ⟨hface, hapart⟩ := hap pc p rfl
  simp only [schedulableAvailableSize, peerDrainableHoleBytes, hgate, Bool.not_true,
    Bool.false_eq_true, if_false] at hle
  by_cases hgap : 0 ≤ gap c pc s.watermark p.watermark
  · obtain ⟨p', hflush, -, -, -, -, -, -, hroom⟩ := urgentFlush_packs pc p timing hp hgate
    refine .inr ⟨pc, p, p', rfl, hflush, hle.trans ?_⟩
    unfold availableSize
    rw [hroom c s hface hgap]
    have hholes : p.freePhysPages.length * pc.entryBytesPerPage ≤
        (p.freePhysPages ++ p.pendingPages).length * pc.entryBytesPerPage := by
      rw [length_append, Nat.add_mul]
      exact Nat.le_add_right _ _
    refine Nat.mul_le_mul_right _ (Nat.add_le_add_right (min_le_min_right _ ?_) _)
    exact Nat.div_le_div_right (Nat.add_le_add_left hholes _)
  · have hnil := hp.freePhysPages_eq_nil (hapart.resolve_left hgap).2
    rw [hnil, length_nil, Nat.zero_mul, Nat.add_zero] at hle
    exact .inl hle

/-- `alloc` binds the first free ids if there is room, at once or after the flush of the peer. -/
theorem Inv.alloc_isSome (h : Inv c s) (hp : PeerInv peer) (ho : c.isIdOwner) (hn : 0 < n) (hroom : HasRoom c s peer timing n) :
    ∃ s' peer', s.alloc c peer timing (n * c.pageSize) =
        some (some (pageTokens c (s.freeVirtualIds.take n)), s', peer') ∧
      n ≤ s.freeVirtualIds.length ∧
      { s with freeVirtualIds := s.freeVirtualIds.drop n }.allocBindFastOrSlow c peer'
        (s.freeVirtualIds.take n) n = some s' ∧
      (n * c.pageSize ≤ s.availableSize c peer → peer' = peer) := by
  obtain ⟨room, peer', he, -, hiff, havail⟩ := ensureRoom_isSome (c := c) (s := s) hp timing n
  obtain rfl : room := hiff.mpr hroom
  have hpos := Nat.mul_pos hn c.pageSize_pos
  obtain ⟨s', hs'⟩ := allocBind_isSome (s := { s with freeVirtualIds := s.freeVirtualIds.drop n })
    h.classes.ok (le_pagesExtend_of_available (havail rfl)) (s.freeVirtualIds.take n)
  refine ⟨s', peer', ?_, h.le_freeVirtualIds ho (havail rfl), hs', fun hnow => ?_⟩
  · simp only [alloc, ho, Bool.not_true, Bool.false_eq_true, if_false, hpos.ne',
      he, Nat.mul_mod_left, ne_eq, not_true_eq_false, map_some, if_true,
      Nat.mul_div_cancel n c.pageSize_pos, hs']
    rfl
  · unfold ensureRoom at he
    rw [if_pos hnow] at he
    cases he
    rfl

theorem allocBind_binds {vs : List Nat}
    (hc : Classes c s.watermark s.physicalToVirtual (s.freePhysPages ++ s.pendingPages))
    (hvs : vs.Nodup) (hlen : vs.length = n) (ha : s.allocBindFastOrSlow c peer vs n = some s') :
    ∀ v ∈ vs, s'.virtualToPhysical v ≠ none := by
  intro v hv
  obtain ⟨phys, wm', free', ht, rfl⟩ :=
    allocBind_spec hc (hlen ▸ length_pos_of_mem hv) ha
  have hlen' : vs.length = phys.length := hlen.trans ht.length.symm
  obtain ⟨q, hz⟩ := exists_mem_zip hlen' hv
  have hbound := (scatter_eq_some_iff (t := s.virtualToPhysical) hvs hlen').mpr (.inl hz)
  exact hbound.trans_ne (some_ne_none q)

end

end MultiEndedAllocator

/-! ### The pages that both sides can take together -/

/-- A full sub-pool, which owns the ids, and a sliding-window sub-pool of the same page size. -/
structure IsUnifiedSwa (cfg : Side → AllocConfig) : Prop where
  facing : Facing (cfg .first) (cfg .second)
  owner : (cfg .first).isIdOwner
  pageSize_eq : (cfg .second).pageSize = (cfg .first).pageSize
  entryBytes_pos : ∀ i, 0 < (cfg i).entryBytesPerPage

/-- The pages that two sides with `Ha ≤ Hb` holes can take out of a gap of `G` bytes: from the holes
of both, from those of the second while the first extends, and from the gap. -/
def threePhase (Ha Hb ea eb G : Nat) : Nat :=
  let K2 := if 0 < ea then min (Hb - Ha) (G / ea) else Hb - Ha
  Ha + K2 + (G - K2 * ea) / (ea + eb)

/-- The bytes by which the two sides then extend are in the gap. -/
theorem threePhase_sound {Ha Hb ea eb G k : Nat} (hab : Ha ≤ Hb) (hea : 0 < ea)
    (hk : k ≤ threePhase Ha Hb ea eb G) : (k - Ha) * ea + (k - Hb) * eb ≤ G := by
  simp only [threePhase, if_pos hea] at hk
  rcases Nat.le_total (Hb - Ha) (G / ea) with hmin | hmin
  · rw [Nat.min_eq_left hmin] at hk
    have hdrain : (Hb - Ha) * ea ≤ G := (Nat.le_div_iff_mul_le hea).mp hmin
    have hboth : (k - Hb) * (ea + eb) ≤ G - (Hb - Ha) * ea := by
      rw [← Nat.le_div_iff_mul_le (by omega)]
      generalize (G - (Hb - Ha) * ea) / (ea + eb) = K3 at hk ⊢
      omega
    have hfirst : (k - Ha) * ea ≤ (Hb - Ha) * ea + (k - Hb) * ea := by
      rw [← Nat.add_mul]
      exact Nat.mul_le_mul_right _ (by omega)
    rw [Nat.mul_add] at hboth
    omega
  · -- the gap ends in the second phase: what is left of it is less than a page
    rw [Nat.min_eq_right hmin] at hk
    have hrest : (G - G / ea * ea) / (ea + eb) = 0 := by
      have := Nat.div_add_mod' G ea
      have := Nat.mod_lt G hea
      exact Nat.div_eq_of_lt (by omega)
    rw [hrest] at hk
    have hzero : k - Hb = 0 := by omega
    rw [hzero, Nat.zero_mul, Nat.add_zero, ← Nat.le_div_iff_mul_le hea]
    generalize G / ea = K2 at hk ⊢
    omega

namespace Pool

variable (cfg : Side → AllocConfig)

/-- `available_size` of the composite, in pages. -/
def jointPages (P : Pool) : Nat :=
  let G := (P .first).currentGapBytes (cfg .first) (some (cfg .second, P .second))
  let room (i : Side) :=
    (cfg i).numPages - (cfg i).minPageIndex - (cfg i).allocatedPages (P i).watermark
  let holes (i : Side) := (P i).freePhysPages.length
  let e (i : Side) := (cfg i).entryBytesPerPage
  let K :=
    if holes .first ≤ holes .second then
      threePhase (holes .first) (holes .second) (e .first) (e .second) G
    else threePhase (holes .second) (holes .first) (e .second) (e .first) G
  min K (min (holes .first + room .first) (holes .second + room .second))

/-- `available_size` of the composite. -/
def jointAvailableSize (P : Pool) : Nat := P.jointPages cfg * (cfg .first).pageSize

/-- The part of `alloc` after the pre-check.  The full side mints the ids, and the other side binds
them in a table that has `num_pages + 1` rows of its own; a greater id is out of bounds. -/
def swaAllocChecked (P : Pool) (timing : Timing) (needSize : Nat) :
    Option (Option (List Nat) × Pool) :=
  let vPages := (P .first).freeVirtualIds.take (needSize / (cfg .first).pageSize)
  ((P .first).alloc (cfg .first) (some (cfg .second, P .second)) timing needSize).bind
    fun (vTokens, full, peer) =>
      if vTokens.isNone then none
      else if ∃ v ∈ vPages, (cfg .second).numPages < v then none
      else
        let swa := (peer.map Prod.snd).getD (P .second)
        (swa.allocWithVirtual (cfg .second) (some (cfg .first, full)) vPages).map fun swa =>
          (vTokens, fun | .first => full | .second => swa)

/-- `UnifiedSWATokenToKVPoolAllocator.alloc`.  `none` is an exception. -/
def swaAlloc (P : Pool) (timing : Side → Timing) (needSize : Nat) :
    Option (Option (List Nat) × Pool) :=
  if needSize ≤ P.jointAvailableSize cfg then P.swaAllocChecked cfg (timing .second) needSize
  else
    -- `_flush_both_for_alloc`
    ((P .first).flush (cfg .first) (timing .first) true).bind fun full =>
      ((P .second).flush (cfg .second) (timing .second) true).bind fun swa =>
        let Q : Pool := fun | .first => full | .second => swa
        if needSize ≤ Q.jointAvailableSize cfg then Q.swaAllocChecked cfg (timing .second) needSize
        else some (none, Q)

end Pool

section

variable {cfg : Side → AllocConfig} {P : Pool} {k : Nat}

section

variable (hu : IsUnifiedSwa cfg)
include hu

/-- What the joint capacity promises to the two sides. -/
theorem IsUnifiedSwa.jointPages_sound (hk : k ≤ P.jointPages cfg) :
    (k - (P .first).freePhysPages.length) * (cfg .first).entryBytesPerPage +
        (k - (P .second).freePhysPages.length) * (cfg .second).entryBytesPerPage ≤
      (P .first).currentGapBytes (cfg .first) (some (cfg .second, P .second)) ∧
    ∀ i, k - (P i).freePhysPages.length ≤
      (cfg i).numPages - (cfg i).minPageIndex - (cfg i).allocatedPages (P i).watermark := by
  simp only [Pool.jointPages] at hk
  obtain ⟨hbytes, hcaps⟩ := Nat.le_min.mp hk
  refine ⟨?_, fun i => by cases i <;> omega⟩
  split_ifs at hbytes with hholes
  · exact threePhase_sound hholes (hu.entryBytes_pos _) hbytes
  · rw [Nat.add_comm]
    exact threePhase_sound (by omega) (hu.entryBytes_pos _) hbytes

/-- The full side has the room at once. -/
theorem IsUnifiedSwa.full_room (hk : k ≤ P.jointPages cfg) :
    k * (cfg .first).pageSize ≤
      (P .first).availableSize (cfg .first) (some (cfg .second, P .second)) := by
  obtain ⟨hbytes, hindex⟩ := hu.jointPages_sound hk
  refine Nat.mul_le_mul_right _ (Nat.sub_le_iff_le_add.mp (Nat.le_min.mpr ⟨?_, hindex .first⟩))
  rw [Nat.le_div_iff_mul_le (hu.entryBytes_pos _)]
  omega

/-- After the full side has taken its pages, the other side still has room. -/
theorem IsUnifiedSwa.swa_room
    (hok : (cfg .first).WatermarkOk (P .first).watermark) (hk : k ≤ P.jointPages cfg)
    {full : MultiEndedAllocator} (hok' : (cfg .first).WatermarkOk full.watermark)
    (hpages : (cfg .first).allocatedPages full.watermark =
      (cfg .first).allocatedPages (P .first).watermark + (k - (P .first).freePhysPages.length)) :
    k - (P .second).freePhysPages.length ≤
      pagesExtend (cfg .second) (P .second) (some (cfg .first, full)) := by
  obtain ⟨hbytes, hindex⟩ := hu.jointPages_sound hk
  refine Nat.le_min.mpr ⟨?_, hindex .second⟩
  rw [Nat.le_div_iff_mul_le (hu.entryBytes_pos _), hu.facing.symm.currentGapBytes,
    hu.facing.symm.gap_comm]
  rw [hu.facing.currentGapBytes] at hbytes
  have hmove := gap_add_allocatedPages (cfg .second) (P .second).watermark hok hok'
  rw [hpages, Nat.add_mul] at hmove
  omega

end

/-- The ids that the full side is about to mint have a row in the table of the other side. -/
def Pool.IdsFit (cfg : Side → AllocConfig) (P : Pool) (needSize : Nat) : Prop :=
  ∀ v ∈ (P .first).freeVirtualIds.take (needSize / (cfg .first).pageSize),
    v ≤ (cfg .second).numPages

/-- The allocation returns its tokens, and the pages are bound on both sides. -/
def Pool.BindsBoth (cfg : Side → AllocConfig) (P : Pool) (needSize : Nat)
    (r : Option (Option (List Nat) × Pool)) : Prop :=
  ∃ tokens Q, r = some (some tokens, Q) ∧ tokens.length = needSize ∧
    ∀ v ∈ (P .first).freeVirtualIds.take (needSize / (cfg .first).pageSize), ∀ i : Side,
      (Q i).virtualToPhysical v ≠ none

theorem IsUnifiedSwa.bindsBoth (hu : IsUnifiedSwa cfg) (hinv : PoolInv cfg P)
    (hk : k ≤ P.jointPages cfg) (timing : Timing)
    (hfit : P.IdsFit cfg (k * (cfg .first).pageSize)) :
    P.BindsBoth cfg (k * (cfg .first).pageSize)
      (P.swaAllocChecked cfg timing (k * (cfg .first).pageSize)) := by
  have hps := (cfg .first).pageSize_pos
  unfold Pool.IdsFit at hfit
  unfold Pool.BindsBoth Pool.swaAllocChecked
  rw [Nat.mul_div_cancel k hps] at hfit ⊢
  rcases Nat.eq_zero_or_pos k with rfl | hpos
  · exact ⟨[], _, by simp [alloc, hu.owner, allocWithVirtual]; rfl, by simp,
      by simp⟩
  have hpeer : PeerInv (some (cfg .second, P .second)) := by
    rintro _ _ ⟨⟩
    exact hinv .second
  have hroom : HasRoom (cfg .first) (P .first) (some (cfg .second, P .second)) timing k :=
    .inl (hu.full_room hk)
  obtain ⟨full, peer', halloc, hids, hbind, hpeer'⟩ :=
    (hinv .first).alloc_isSome hpeer hu.owner hpos hroom
  obtain rfl := hpeer' (hu.full_room hk)
  have hlen : ((P .first).freeVirtualIds.take k).length = k := by
    rw [length_take]
    omega
  have hnodup := ((hinv .first).ids hu.owner).nodup.sublist (take_sublist k _)
  obtain ⟨hok', hpages⟩ := allocBind_allocatedPages
    (s := { P .first with freeVirtualIds := (P .first).freeVirtualIds.drop k })
    (hinv .first).classes.ok hbind
  obtain ⟨swa, hswa⟩ := allocBind_isSome (s := P .second) (hinv .second).classes.ok
    (hu.swa_room (hinv .first).classes.ok hk hok' hpages) ((P .first).freeVirtualIds.take k)
  have hwith : (P .second).allocWithVirtual (cfg .second) (some (cfg .first, full))
      ((P .first).freeVirtualIds.take k) = some swa := by
    unfold allocWithVirtual
    rw [if_neg (ne_nil_of_length_pos (by omega)), hlen]
    exact hswa
  have hrows : ¬ ∃ v ∈ (P .first).freeVirtualIds.take k, (cfg .second).numPages < v := by
    rintro ⟨v, hv, hlt⟩
    exact absurd (hfit v hv) (Nat.not_le.mpr hlt)
  refine ⟨pageTokens (cfg .first) ((P .first).freeVirtualIds.take k),
    fun | .first => full | .second => swa, ?_, ?_, fun v hv i => ?_⟩
  · simp only [halloc, bind_some, isNone_some, Bool.false_eq_true, if_false,
      if_neg hrows, map_some, getD_some, hwith]
  · rw [length_pageTokens, hlen]
  · cases i with
    | first =>
      exact allocBind_binds
        (s := { P .first with freeVirtualIds := (P .first).freeVirtualIds.drop k })
        (hinv .first).classes hnodup hlen hbind v hv
    | second => exact allocBind_binds (hinv .second).classes hnodup hlen hswa v hv

/-- **The composite allocation** within the joint capacity succeeds exactly for whole pages whose ids
fit into the table of the sliding-window side. -/
theorem IsUnifiedSwa.swaAlloc_iff (hu : IsUnifiedSwa cfg) (hinv : PoolInv cfg P)
    (timing : Side → Timing) {n : Nat} (hn : n ≤ P.jointAvailableSize cfg) :
    P.BindsBoth cfg n (P.swaAlloc cfg timing n) ↔
      n % (cfg .first).pageSize = 0 ∧ P.IdsFit cfg n := by
  have hps := (cfg .first).pageSize_pos
  unfold Pool.swaAlloc
  rw [if_pos hn]
  constructor
  · rintro ⟨tokens, Q, hr, -, -⟩
    obtain ⟨⟨vTokens, full, peer⟩, halloc, hr⟩ := bind_eq_some_iff.mp hr
    simp only at hr
    split_ifs at hr with hnone hrows
    refine ⟨?_, fun v hv => Nat.not_lt.mp fun hlt => hrows ⟨v, hv, hlt⟩⟩
    unfold alloc at halloc
    split_ifs at halloc with _ h0 hmod
    · rw [h0, Nat.zero_mod]
    · exact not_not.mp hmod
  · rintro ⟨hmod, hfit⟩
    obtain ⟨k, rfl⟩ : ∃ k, n = k * (cfg .first).pageSize :=
      ⟨_, (Nat.div_mul_cancel (Nat.dvd_of_mod_eq_zero hmod)).symm⟩
    exact hu.bindsBoth hinv (Nat.le_of_mul_le_mul_right hn hps) _ hfit

end

/-- **What is credited can be allocated.**  In every state that a pair of sub-pools reaches by steps
that replace no pending entry and bind no ids without room, an id owner gets as many tokens as
`schedulable_available_size` says while moves are allowed; and the composite over a full and a
sliding-window sub-pool gets what its joint `available_size` says, exactly if the ids fit. -/
theorem credited_realizable {cfg : Side → AllocConfig} {P : Pool}
    (hface : Facing (cfg .first) (cfg .second))
    (hrun : Run cfg true (Pool.Kept cfg) (Pool.clear cfg) P) :
    (∀ (i : Side) (timing : Timing) (n : Nat), (cfg i).isIdOwner = true →
      timing.moveGate = true → 0 < n → n % (cfg i).pageSize = 0 →
      n ≤ (P i).schedulableAvailableSize (cfg i) (P.peer cfg true i) timing →
      ∃ pages s' peer', (P i).alloc (cfg i) (P.peer cfg true i) timing n =
          some (some (pageTokens (cfg i) pages), s', peer') ∧
        (pageTokens (cfg i) pages).length = n ∧ pages.length = n / (cfg i).pageSize ∧
        pages.Nodup ∧ ∀ v ∈ pages, (P i).virtualToPhysical v = none) ∧
    ∀ (timing : Side → Timing) (n : Nat), IsUnifiedSwa cfg → n ≤ P.jointAvailableSize cfg →
      (P.BindsBoth cfg n (P.swaAlloc cfg timing n) ↔
        n % (cfg .first).pageSize = 0 ∧ P.IdsFit cfg n) := by
  obtain ⟨hinv, hap⟩ := Apart.run hface hrun
  refine ⟨fun i timing n ho hgate hpos hmod hle => ?_,
    fun timing n hu hn => hu.swaAlloc_iff hinv timing hn⟩
  obtain ⟨k, rfl⟩ : ∃ k, n = k * (cfg i).pageSize :=
    ⟨_, (Nat.div_mul_cancel (Nat.dvd_of_mod_eq_zero hmod)).symm⟩
  have hk : 0 < k := Nat.pos_of_mul_pos_right hpos
  have hroom : HasRoom (cfg i) (P i) (P.peer cfg true i) timing k :=
    (hinv i.other).hasRoom_of_credited ((apart_iff i).mp hap) hgate hle
  obtain ⟨s', peer', halloc, hids, -, -⟩ := (hinv i).alloc_isSome (hinv.peer i) ho hk hroom
  have hlen : ((P i).freeVirtualIds.take k).length = k := by
    rw [length_take]
    omega
  refine ⟨_, s', peer', halloc, ?_, ?_, ?_, fun v hv => ?_⟩
  · rw [length_pageTokens, hlen]
  · rw [hlen, Nat.mul_div_cancel k (cfg i).pageSize_pos]
  · exact ((hinv i).ids ho).nodup.sublist (take_sublist _ _)
  · exact (((hinv i).ids ho).mem_iff v |>.mp (mem_of_mem_take hv)).2.2

/-- A buffer of sixty bytes for one full layer and five sliding-window layers. -/
def fiveToOne : Side → AllocConfig
  | .first => { smallPools .first with
      numPages := 60, minPageIndex := 5, totalBytes := 60, minPageIndex_pos := by decide,
      numPages_pos := by decide }
  | .second => { smallPools .second with
      numPages := 12, entryBytesPerPage := 5, totalBytes := 60, numPages_pos := by decide }

/-- Pages 5 to 11 are bound on both sides. -/
def boundOnce : List Step :=
  [⟨.first, answering false, .alloc 7⟩,
    ⟨.second, answering false, .allocWithVirtual [5, 6, 7, 8, 9, 10, 11]⟩]

/-- They are freed again. -/
def freedAgain : List Step :=
  boundOnce ++ [.first, .second].map fun i =>
    ⟨i, answering false, .free [5, 6, 7, 8, 9, 10, 11]⟩

theorem isUnifiedSwa_fiveToOne : IsUnifiedSwa fiveToOne :=
  ⟨by unfold Facing; decide, rfl, rfl, by rintro (- | -) <;> decide⟩

/-- While seven pages are bound, thirteen more are credited to the full side and one to the
composite, and both get them. -/
theorem credited_realizable_boundOnce : ∃ P : Pool,
    (∃ pages s' peer', (P .first).alloc (fiveToOne .first) (P.peer fiveToOne true .first)
        (answering false) 13 = some (some (pageTokens (fiveToOne .first) pages), s', peer') ∧
      pages.length = 13 ∧ pages.Nodup) ∧
    P.BindsBoth fiveToOne 1 (P.swaAlloc fiveToOne (fun _ => answering false) 1) := by
  have hrun : ∃ P ∈ replay fiveToOne true (Pool.Kept fiveToOne) boundOnce (Pool.clear fiveToOne),
      13 ≤ (P .first).schedulableAvailableSize (fiveToOne .first) (P.peer fiveToOne true .first)
        (answering false) ∧
      1 ≤ P.jointAvailableSize fiveToOne ∧
      ∀ v ∈ (P .first).freeVirtualIds.take 1, v ≤ 12 := by
    decide +kernel
  obtain ⟨P, hP, hcredit, hjoint, hfit⟩ := hrun
  obtain ⟨h₁, h₂⟩ := credited_realizable isUnifiedSwa_fiveToOne.facing (Run.of_replay hP)
  obtain ⟨pages, s', peer', halloc, -, hlen, hnodup, -⟩ :=
    h₁ .first (answering false) 13 rfl rfl (by decide) rfl hcredit
  exact ⟨P, ⟨pages, s', peer', halloc, hlen, hnodup⟩,
    (h₂ _ 1 isUnifiedSwa_fiveToOne hjoint).mpr ⟨rfl, hfit⟩⟩

/-- **An id out of bounds.**  Freed ids go to the end of the list of the full side, so after seven
pages have come and gone the next ids are 12, 13, ...: four pages are credited, but the table of the
other side ends at row 12. -/
theorem swaAlloc_outOfBounds : ∃ P : Pool,
    Run fiveToOne true (Pool.Kept fiveToOne) (Pool.clear fiveToOne) P ∧
      4 ≤ P.jointAvailableSize fiveToOne ∧
      P.swaAlloc fiveToOne (fun _ => answering false) 4 = none := by
  have hrun : ∃ P ∈ replay fiveToOne true (Pool.Kept fiveToOne) freedAgain (Pool.clear fiveToOne),
      4 ≤ P.jointAvailableSize fiveToOne ∧
      (P.swaAlloc fiveToOne (fun _ => answering false) 4).isNone = true := by
    decide +kernel
  obtain ⟨P, hP, hjoint, hnone⟩ := hrun
  exact ⟨P, Run.of_replay hP, hjoint, isNone_iff_eq_none.mp hnone⟩

end SglangRuntime.MultiEnded
