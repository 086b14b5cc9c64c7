import SglangRuntime.MemCache.MultiEnded.Operations

/-!
# Memory cache — runs of two sub-pools of one buffer

A step is an operation on one side; an allocation may flush the other side.  Everything that events
answer is part of the step, so a run can have any timing.

* `run_tablesAgree`: the tables of both sides agree in every state of a run in which no flush
  replaces an entry of `_pending_reuse`.
* `pendingEntry_replaced`: a flush that does replace one loses its pages.
-/

namespace SglangRuntime.MultiEnded

open Foundation MultiEndedAllocator Function Option

inductive Side where
  | first | second
deriving DecidableEq, Repr

def Side.other : Side → Side
  | .first => .second
  | .second => .first

/-- The two allocators of a buffer. -/
abbrev Pool := Side → MultiEndedAllocator

/-- An operation on one side. -/
inductive Op where
  | alloc (needSize : Nat)
  | allocExtend (numNewPages extendNumTokens bs : Nat)
  | allocDecode (numNewPages bs : Nat)
  | allocWithVirtual (virtualPages : List Nat)
  | free (freeIndex : List Nat)
  | freeGroupBegin
  | freeGroupEnd
  | flush (urgent : Bool)
  | flushOpportunistic
  | maybeDrainPendingReuse
  | setLatestForwardDoneEvent (event : Option Event)
  | setInflightForward (forwardDone : Event) (outCacheLoc : List Nat)

structure Step where
  side : Side
  timing : Timing
  op : Op

section

variable (cfg : Side → AllocConfig) (peered : Bool)

namespace Pool

def clear : Pool := fun i => MultiEndedAllocator.clear (cfg i)

section

variable (P : Pool)

/-- The other side, once `bind_peer` has been called. -/
def peer (i : Side) : Peer :=
  if peered then some (cfg i.other, P i.other) else none

/-- The state after an operation on side `i` that may have flushed the other side. -/
def put (i : Side) (s : MultiEndedAllocator) (peer : Peer) : Pool :=
  update (match peer with
    | none => P
    | some (_, p) => update P i.other p) i s

def step (st : Step) : Option Pool :=
  let i := st.side
  let s := P i
  let peer := P.peer cfg peered i
  match st.op with
  | .alloc n => (s.alloc (cfg i) peer st.timing n).map fun (_, s, peer) => P.put i s peer
  | .allocExtend num ext bs =>
    (s.allocExtend (cfg i) peer st.timing num ext bs).map fun (_, s, peer) => P.put i s peer
  | .allocDecode num bs =>
    (s.allocDecode (cfg i) peer st.timing num bs).map fun (_, s, peer) => P.put i s peer
  | .allocWithVirtual vs => (s.allocWithVirtual (cfg i) peer vs).map (P.put i · none)
  | .free tokens => (s.free (cfg i) tokens).map (P.put i · none)
  | .freeGroupBegin => some (P.put i s.freeGroupBegin none)
  | .freeGroupEnd => (s.freeGroupEnd (cfg i)).map (P.put i · none)
  | .flush urgent => (s.flush (cfg i) st.timing urgent).map (P.put i · none)
  | .flushOpportunistic => (s.flushOpportunistic (cfg i) st.timing).map (P.put i · none)
  | .maybeDrainPendingReuse =>
    some (P.put i (s.drainPendingReuse (cfg i) st.timing.firedAtDrain false) none)
  | .setLatestForwardDoneEvent event => some (P.put i (s.setLatestForwardDoneEvent event) none)
  | .setInflightForward e ocl => some (P.put i (s.setInflightForward e ocl) none)

/-- What the caller of an operation owes. -/
def Owed (st : Step) : Prop :=
  match st.op with
  | .allocWithVirtual vs =>
    (cfg st.side).isIdOwner = false ∧ vs.Nodup ∧
      ∀ v ∈ vs, (P st.side).virtualToPhysical v = none
  | .free tokens => (P st.side).isNotInFreeGroup → Freeable (cfg st.side) (P st.side) tokens
  | .freeGroupEnd => Freeable (cfg st.side) (P st.side) (P st.side).freeGroup
  | _ => True

/-- The step is a non-urgent flush that replaces an entry of `_pending_reuse`. -/
def Replaces (st : Step) : Prop :=
  match st.op with
  | .flush false | .flushOpportunistic => Overwrites (cfg st.side) (P st.side) st.timing
  | _ => False

end

instance (P : Pool) (st : Step) : Decidable (P.Owed cfg st) := by
  unfold Owed; split <;> infer_instance

instance (P : Pool) (st : Step) : Decidable (P.Replaces cfg st) := by
  unfold Replaces; split <;> infer_instance

end Pool

/-- Runs whose steps all satisfy `ok`. -/
inductive Run (ok : Pool → Step → Prop) (P : Pool) : Pool → Prop
  | refl : Run ok P P
  | tail {Q R : Pool} {st : Step} : Run ok P Q → Q.Owed cfg st → ok Q st →
      Q.step cfg peered st = some R → Run ok P R

/-- A list of steps, as long as they are allowed. -/
def replay (ok : Pool → Step → Prop) [∀ P st, Decidable (ok P st)] : List Step → Pool → Option Pool
  | [], P => some P
  | st :: sts, P =>
    if P.Owed cfg st ∧ ok P st then (P.step cfg peered st).bind (replay ok sts) else none

end

/-! ### The invariant of a run -/

section

variable {cfg : Side → AllocConfig} {peered : Bool} {ok : Pool → Step → Prop} {P Q R : Pool}

theorem Run.trans (h : Run cfg peered ok P Q) (h' : Run cfg peered ok Q R) :
    Run cfg peered ok P R := by
  induction h' with
  | refl => exact h
  | tail _ ho hok hs ih => exact .tail ih ho hok hs

theorem Run.of_replay [∀ P st, Decidable (ok P st)] {sts : List Step}
    (h : replay cfg peered ok sts P = some Q) : Run cfg peered ok P Q := by
  induction sts generalizing P with
  | nil =>
    cases h
    exact .refl
  | cons st sts ih =>
    rw [replay] at h
    split_ifs at h with hok
    obtain ⟨R, hs, h⟩ := bind_eq_some_iff.mp h
    exact (Run.tail .refl hok.1 hok.2 hs).trans (ih h)

/-- Both allocators keep their invariant. -/
def PoolInv (cfg : Side → AllocConfig) (P : Pool) : Prop := ∀ i, Inv (cfg i) (P i)

theorem PoolInv.peer (h : PoolInv cfg P) (i : Side) : PeerInv (P.peer cfg peered i) := by
  intro pc p e
  unfold Pool.peer at e
  split_ifs at e
  cases e
  exact h i.other

theorem Pool.put_of_ne (P : Pool) {i j : Side} (hij : j ≠ i) (s : MultiEndedAllocator)
    (peer : Peer) : P.put i s peer j = (peer.map Prod.snd).getD (P j) := by
  have hj : j = i.other := by revert hij; cases i <;> cases j <;> simp [Side.other]
  unfold Pool.put
  rw [update_of_ne hij]
  cases peer with
  | none => rfl
  | some p => rw [hj]; exact update_self ..

section

variable (h : PoolInv cfg P) {i : Side} {s : MultiEndedAllocator}
include h

/-- The state after an operation, from what the operation does to the side and to its peer. -/
theorem PoolInv.put {b : Bool} {peer : Peer} (hs : Inv (cfg i) s) (hp : PeerInv peer)
    (hcfg : peer.map Prod.fst = (P.peer cfg b i).map Prod.fst) : PoolInv cfg (P.put i s peer) := by
  intro j
  by_cases hij : j = i
  · subst hij
    unfold Pool.put
    rw [update_self]
    exact hs
  have hj : j = i.other := by revert hij; cases i <;> cases j <;> simp [Side.other]
  rw [P.put_of_ne hij]
  rcases peer with - | ⟨pc, p⟩
  · exact h j
  unfold Pool.peer at hcfg
  split_ifs at hcfg with hpeer
  · cases hcfg
    rw [hj]
    exact hp _ _ rfl
  · cases hcfg

theorem PoolInv.put_none (hs : Inv (cfg i) s) : PoolInv cfg (P.put i s none) :=
  h.put (b := false) hs (fun _ _ e => by cases e) rfl

/-- An operation with a result that keeps the invariant of its side. -/
theorem PoolInv.map_put {r : Option MultiEndedAllocator}
    (hr : ∃ s, r = some s ∧ Inv (cfg i) s) (hQ : r.map (P.put i · none) = some Q) :
    PoolInv cfg Q := by
  obtain ⟨s, rfl, hs⟩ := hr
  cases hQ
  exact h.put_none hs

/-- **One step.** -/
theorem PoolInv.step {st : Step} (ho : P.Owed cfg st)
    (hr : ¬ P.Replaces cfg st) (hs : P.step cfg peered st = some Q) : PoolInv cfg Q := by
  obtain ⟨i, timing, op⟩ := st
  have hi := h i
  have hpeer : PeerInv (P.peer cfg peered i) := h.peer i
  cases op with
  | alloc n =>
    obtain ⟨⟨r, s, peer⟩, ha, rfl⟩ := map_eq_some_iff.mp hs
    obtain ⟨h₁, h₂, h₃⟩ := hi.allocates hpeer (hi.alloc_allocates hpeer ha)
    exact h.put h₁ h₂ h₃
  | allocExtend num ext bs =>
    obtain ⟨⟨r, s, peer⟩, ha, rfl⟩ := map_eq_some_iff.mp hs
    obtain ⟨h₁, h₂, h₃⟩ := hi.allocates hpeer (allocPaged_allocates ha)
    exact h.put h₁ h₂ h₃
  | allocDecode num bs =>
    obtain ⟨⟨r, s, peer⟩, ha, rfl⟩ := map_eq_some_iff.mp hs
    obtain ⟨h₁, h₂, h₃⟩ := hi.allocates hpeer (allocPaged_allocates ha)
    exact h.put h₁ h₂ h₃
  | allocWithVirtual vs =>
    obtain ⟨s, ha, rfl⟩ := map_eq_some_iff.mp hs
    exact h.put_none (hi.allocWithVirtual ho.1 ho.2.1 ho.2.2 ha)
  | free tokens => exact h.map_put (hi.free ho) hs
  | freeGroupBegin =>
    cases hs
    exact h.put_none (hi.setForward false [] _ _)
  | freeGroupEnd => exact h.map_put (hi.freeGroupEnd ho) hs
  | flush urgent =>
    refine h.map_put (hi.flush timing urgent fun hu => ?_) hs
    subst hu
    exact hr
  | flushOpportunistic => exact h.map_put (hi.flushOpportunistic timing hr) hs
  | maybeDrainPendingReuse =>
    cases hs
    exact h.put_none (hi.drainPendingReuse _ _)
  | setLatestForwardDoneEvent event =>
    cases hs
    exact h.put_none (hi.setForward _ _ event _)
  | setInflightForward e ocl =>
    cases hs
    exact h.put_none (hi.setForward _ _ _ _)

theorem PoolInv.run
    (hrun : Run cfg peered (fun P st => ¬ P.Replaces cfg st) P Q) : PoolInv cfg Q := by
  induction hrun with
  | refl => exact h
  | tail _ ho hr hs ih => exact ih.step ho hr hs

end

end

/-! ### The tables agree -/

/-- The tables of one sub-pool. -/
structure TablesAgree (c : AllocConfig) (s : MultiEndedAllocator) : Prop where
  /-- every page of the band is live, a hole or pending, -/
  cover : ∀ p, c.InBand s.watermark p →
    s.physicalToVirtual p ≠ none ∨ p ∈ s.freePhysPages ∨ p ∈ s.pendingPages
  /-- and only one of these, -/
  live : ∀ p, p ∈ s.freePhysPages ∨ p ∈ s.pendingPages →
    c.InBand s.watermark p ∧ s.physicalToVirtual p = none
  holes : ∀ p ∈ s.freePhysPages, p ∉ s.pendingPages
  /-- listed once. -/
  holes_once : s.freePhysPages.Nodup
  pending_once : s.pendingPages.Nodup
  inverse : ∀ v p, s.virtualToPhysical v = some p ↔ s.physicalToVirtual p = some v
  count : s.livePageCount =
    (((Finset.range c.numPages).filter fun p =>
      c.InBand s.watermark p ∧ s.physicalToVirtual p ≠ none).card : Int)
  /-- Besides page 0, the padding sink, only pages of the band are bound. -/
  beyond : ∀ p, p ≠ 0 → ¬ c.InBand s.watermark p →
    s.physicalToVirtual p = none ∧ ∀ v, s.virtualToPhysical v ≠ some p
  ids_once : c.isIdOwner → s.freeVirtualIds.Nodup
  ids : c.isIdOwner → ∀ v, v ≠ 0 →
    (v ∈ s.freeVirtualIds ∨ s.virtualToPhysical v ≠ none ↔ c.minPageIndex ≤ v ∧ v < c.numPages)
  ids_free : c.isIdOwner → ∀ v ∈ s.freeVirtualIds, v ≠ 0 ∧ s.virtualToPhysical v = none

theorem MultiEndedAllocator.Inv.tablesAgree {c : AllocConfig} {s : MultiEndedAllocator}
    (h : Inv c s) : TablesAgree c s := by
  have hmem := fun p => h.classes.mem_iff p
  simp only [List.mem_append] at hmem
  obtain ⟨hfree, hpend, hdis⟩ := List.nodup_append.mp h.classes.nodup
  refine ⟨fun p hp => ?_, fun p hp => (hmem p).mp hp, fun p hp hq => hdis p hp p hq rfl, hfree, hpend,
    h.inverse, ?_, fun p h0 hp => ?_, fun ho => (h.ids ho).nodup, fun ho v h0 => ?_, fun ho v hv => ?_⟩
  · by_cases hg : s.physicalToVirtual p = none
    · exact .inr ((hmem p).mpr ⟨hp, hg⟩)
    · exact .inl hg
  · have h₁ := h.count
    have h₂ := h.classes.card_bound
    simp only [Classes.bandPages, Finset.filter_filter] at h₂
    omega
  · have hg := h.classes.unbound_of_not_inBand h0 hp
    refine ⟨hg, fun v hv => ?_⟩
    rw [(h.inverse v p).mp hv] at hg
    cases hg
  · rw [(h.ids ho).mem_iff]
    constructor
    · rintro (hv | hv)
      · exact ⟨hv.1, hv.2.1⟩
      · obtain ⟨p, e⟩ := ne_none_iff_exists'.mp hv
        exact ((h.ids ho).bound v p e).resolve_left h0
    · intro hv
      by_cases hn : s.virtualToPhysical v = none
      · exact .inl ⟨hv.1, hv.2, hn⟩
      · exact .inr hn
  · have hv := ((h.ids ho).mem_iff v).mp hv
    have := c.minPageIndex_pos
    exact ⟨by omega, hv.2.2⟩

/-- **In every run in which no flush replaces a pending entry, the tables of both sides agree.** -/
theorem run_tablesAgree {cfg : Side → AllocConfig} {peered : Bool} {P : Pool}
    (hrun : Run cfg peered (fun P st => ¬ P.Replaces cfg st) (Pool.clear cfg) P) (i : Side) :
    TablesAgree (cfg i) (P i) :=
  (PoolInv.run (fun i => inv_clear (cfg i)) hrun i).tablesAgree

/-! ### A flush that replaces an entry -/

/-- Two sub-pools of eight pages that grow towards each other. -/
def smallPools : Side → AllocConfig
  | .first =>
    { growDirection := .up, numPages := 8, minPageIndex := 1, pageSize := 1, entryBytesPerPage := 1,
      totalBytes := 8, isIdOwner := true, needSort := false, sortFreeListAfterMerge := true,
      lazyMaxMovesPerCall := 4, minPageIndex_pos := by decide, numPages_pos := by decide,
      pageSize_pos := by decide }
  | .second =>
    { growDirection := .down, numPages := 8, minPageIndex := 1, pageSize := 1,
      entryBytesPerPage := 1, totalBytes := 8, isIdOwner := false, needSort := false,
      sortFreeListAfterMerge := true, lazyMaxMovesPerCall := 4, minPageIndex_pos := by decide,
      numPages_pos := by decide, pageSize_pos := by decide }

/-- The answers to event queries at one moment. -/
def answering (fired : Bool) : Timing := ⟨true, fun _ => fired, fun _ => fired, fun _ => fired⟩

/-- Four pages are bound and forward 7 is running; the first page is freed and the band is flushed. -/
def flushOnce : List Step :=
  [.alloc 4, .setLatestForwardDoneEvent (some 7), .free [1], .flush false].map
    (⟨.first, answering false, ·⟩)

/-- The same again, with the second page. -/
def flushTwice : List Step :=
  flushOnce ++ [⟨.first, answering false, .free [2]⟩, ⟨.first, answering false, .flush false⟩]

/-- **Page 4 is lost.**  The first flush leaves it to wait for forward 7; the second, during the same
forward, puts page 3 in its place. -/
theorem pendingEntry_replaced :
    ∃ P, Run smallPools true (fun _ _ => True) (Pool.clear smallPools) P ∧
      ¬ TablesAgree (smallPools .first) (P .first) := by
  have hrun : ∃ P ∈ replay smallPools true (fun _ _ => True) flushTwice
      (Pool.clear smallPools),
        (smallPools .first).InBand (P .first).watermark 4 ∧
          (P .first).physicalToVirtual 4 = none ∧ 4 ∉ (P .first).freePhysPages ∧
          4 ∉ (P .first).pendingPages := by
    decide +kernel
  obtain ⟨P, hP, hband, hlive, hhole, hpend⟩ := hrun
  refine ⟨P, .of_replay hP, fun h => ?_⟩
  rcases h.cover 4 hband with h | h | h
  · exact h hlive
  · exact hhole h
  · exact hpend h

/-- A second flush during the same forward is harmless while it finds nothing to move. -/
theorem run_tablesAgree_flushOnce :
    ∃ P, Run smallPools true (fun P st => ¬ P.Replaces smallPools st) (Pool.clear smallPools) P ∧
      (P .first).pendingReuse = [(7, [4])] ∧ ∀ i, TablesAgree (smallPools i) (P i) := by
  have hrun : ∃ P ∈ replay smallPools true (fun P st => ¬ P.Replaces smallPools st)
      (flushOnce ++ [⟨.first, answering false, .flush false⟩]) (Pool.clear smallPools),
      (P .first).pendingReuse = [(7, [4])] := by
    decide +kernel
  obtain ⟨P, hP, hpend⟩ := hrun
  have hrun := Run.of_replay hP
  exact ⟨P, hrun, hpend, run_tablesAgree hrun⟩

end SglangRuntime.MultiEnded
