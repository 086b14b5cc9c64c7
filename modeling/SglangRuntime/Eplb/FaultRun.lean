import SglangRuntime.Eplb.Rebalance
import Mathlib.Data.List.Count
import Mathlib.Tactic.NormNum

/-!
# Expert parallelism — no dispatch to a failed rank

Once a fault is handled, the installed map lists slots of active ranks only, as long as the
rebalance for the fault is not skipped, no periodic rebalance is suspended with a plan that lists a
slot of a failed rank, and the world has not been scaled up (`Sound`).  The three conditions are
needed: `fault_handled_lists_failed` has a run for each.

The placement on the active ranks is moved up around the failed ones by `shiftFailed`, and
`mem_shiftFailed` says that it then lists slots of active ranks.
-/

namespace SglangRuntime.Eplb

open List Option

variable {cfg : Config} {s s' : State} {report : Report} {numLocal slot : Nat}
  {activeRanks : List Bool} {plan : Plan}

/-- The slot is one of an active rank. -/
def ActiveSlot (cfg : Config) (activeRanks : List Bool) (slot : Nat) : Prop :=
  activeRanks[slot / cfg.numLocalPhysicalExperts]? = some true

/-- The map lists slots of active ranks only, in these layers. -/
def OnlyActive (cfg : Config) (activeRanks : List Bool) (map : ExpertMap) (layerIds : List Nat) :
    Prop :=
  ∀ layer ∈ layerIds, ∀ expert, ∀ slot ∈ map layer expert, ActiveSlot cfg activeRanks slot

/-! ### The placement -/

/-- The slots of the ranks before `idx` are in place, and those from there on are numbered over the
active ranks that are left. -/
theorem mem_shiftFailed (hpos : 0 < numLocal) (ranks : List Bool) :
    ∀ {idx : Nat} {slots : Finset Nat} {slot : Nat},
      (∀ q ∈ slots, idx ≤ q / numLocal → q / numLocal - idx < ranks.count true) →
      slot ∈ shiftFailed numLocal idx ranks slots →
      slot / numLocal < idx ∧ slot ∈ slots ∨
        idx ≤ slot / numLocal ∧ ranks[slot / numLocal - idx]? = some true := by
  induction ranks with
  | nil =>
    intro idx slots slot hcount hslot
    left
    refine ⟨?_, hslot⟩
    by_contra hge
    exact absurd (hcount slot hslot (by omega)) (Nat.not_lt_zero _)
  | cons active ranks ih =>
    intro idx slots slot hcount hslot
    rw [shiftFailed] at hslot
    cases active with
    | true =>
      have hcount' : ∀ q ∈ slots, idx + 1 ≤ q / numLocal →
          q / numLocal - (idx + 1) < ranks.count true := by
        intro q hq hle
        have := hcount q hq (by omega)
        rw [count_cons_self] at this
        omega
      rcases ih hcount' hslot with ⟨hlt, hmem⟩ | ⟨hle, hact⟩
      · rcases Nat.lt_or_ge (slot / numLocal) idx with hlt' | hge
        · exact .inl ⟨hlt', hmem⟩
        · refine .inr ⟨hge, ?_⟩
          rw [show slot / numLocal - idx = 0 by omega]
          rfl
      · refine .inr ⟨by omega, ?_⟩
        rw [show slot / numLocal - idx = slot / numLocal - (idx + 1) + 1 by omega]
        exact hact
    | false =>
      have hdiv : ∀ q, (q + numLocal) / numLocal = q / numLocal + 1 := fun q =>
        Nat.add_div_right q hpos
      have hcount' : ∀ q ∈ slots.image fun slot =>
            if idx * numLocal ≤ slot then slot + numLocal else slot,
          idx + 1 ≤ q / numLocal → q / numLocal - (idx + 1) < ranks.count true := by
        intro q hq hle
        obtain ⟨p, hp, rfl⟩ := Finset.mem_image.mp hq
        split_ifs at hle ⊢ with h
        · have := hcount p hp ((Nat.le_div_iff_mul_le hpos).mpr h)
          rw [count_cons_of_ne (by decide)] at this
          rw [hdiv]
          omega
        · exact absurd ((Nat.le_div_iff_mul_le hpos).mp (Nat.le_of_succ_le hle)) h
      rcases ih hcount' hslot with ⟨hlt, hmem⟩ | ⟨hle, hact⟩
      · obtain ⟨p, hp, rfl⟩ := Finset.mem_image.mp hmem
        split_ifs at hlt ⊢ with h
        · have := (Nat.le_div_iff_mul_le hpos).mpr h
          rw [hdiv] at hlt
          omega
        · refine .inl ⟨?_, hp⟩
          by_contra hge
          exact h ((Nat.le_div_iff_mul_le hpos).mp (by omega))
      · refine .inr ⟨by omega, ?_⟩
        rw [show slot / numLocal - idx = slot / numLocal - (idx + 1) + 1 by omega]
        exact hact

theorem shiftFailed_empty (numLocal : Nat) (ranks : List Bool) :
    ∀ idx, shiftFailed numLocal idx ranks ∅ = ∅ := by
  induction ranks with
  | nil => exact fun _ => rfl
  | cons active ranks ih =>
    intro idx
    rw [shiftFailed, Finset.image_empty, ite_self]
    exact ih (idx + 1)

/-- Only ranks of the world are active. -/
def InWorld (cfg : Config) (activeRanks : List Bool) : Prop :=
  ∀ rank : Nat, activeRanks[rank]? = some true → rank < cfg.epSize

/-- Every rank of the world is active. -/
def AllActive (cfg : Config) (activeRanks : List Bool) : Prop :=
  ∀ rank < cfg.epSize, activeRanks[rank]? = some true

theorem count_le_of_forall_lt : ∀ {ranks : List Bool} {n : Nat},
    (∀ rank : Nat, ranks[rank]? = some true → rank < n) → ranks.count true ≤ n := by
  intro ranks
  induction ranks with
  | nil => simp
  | cons active ranks ih =>
    intro n h
    cases n with
    | zero =>
      rw [Nat.le_zero, count_eq_zero]
      intro hmem
      obtain ⟨i, hi⟩ := mem_iff_getElem?.mp hmem
      exact absurd (h i hi) (Nat.not_lt_zero i)
    | succ n =>
      have := ih (n := n) fun rank hr => Nat.lt_of_succ_lt_succ (h (rank + 1) hr)
      have hle := count_cons (a := true) (b := active) (l := ranks)
      split_ifs at hle <;> omega

/-- As many active ranks as the world has are all of them. -/
theorem allActive_of_count : ∀ {ranks : List Bool} {n : Nat},
    (∀ rank : Nat, ranks[rank]? = some true → rank < n) → n ≤ ranks.count true →
    ∀ rank < n, ranks[rank]? = some true := by
  intro ranks
  induction ranks with
  | nil =>
    intro n _ hn rank hr
    simp at hn
    omega
  | cons active ranks ih =>
    intro n h hn rank hr
    cases n with
    | zero => omega
    | succ n =>
      have hlt : ∀ rank : Nat, ranks[rank]? = some true → rank < n := fun rank hr =>
        Nat.lt_of_succ_lt_succ (h (rank + 1) hr)
      have hle := count_le_of_forall_lt hlt
      cases active with
      | false =>
        rw [count_cons_of_ne (by decide)] at hn
        omega
      | true =>
        rw [count_cons_self] at hn
        cases rank with
        | zero => rfl
        | succ rank => exact ih hlt (by omega) rank (by omega)

theorem le_count_of_forall : ∀ {ranks : List Bool} {n : Nat},
    (∀ rank < n, ranks[rank]? = some true) → n ≤ ranks.count true := by
  intro ranks
  induction ranks with
  | nil =>
    intro n h
    cases n with
    | zero => exact le_rfl
    | succ n => exact nomatch h 0 (Nat.succ_pos n)
  | cons active ranks ih =>
    intro n h
    cases n with
    | zero => exact Nat.zero_le _
    | succ n =>
      have h0 : active := some.inj (h 0 (Nat.succ_pos n))
      rw [h0, count_cons_self]
      exact Nat.succ_le_succ (ih fun rank hr => h (rank + 1) (Nat.succ_lt_succ hr))

theorem lt_div_of_mem_range {n : Nat} (h : slot < numLocal * n) : slot / numLocal < n :=
  Nat.div_lt_of_lt_mul h

/-- The placement that the balancer's is moved up to lists slots of active ranks only. -/
theorem activeSlot_rebalanceExperts (hw : InWorld cfg activeRanks)
    {phy2log : Nat → Nat → Nat} {layer expert : Nat}
    (hslot : slot ∈ (rebalanceExperts cfg activeRanks phy2log).2 layer expert) :
    ActiveSlot cfg activeRanks slot := by
  rw [rebalanceExperts] at hslot
  have hrange : ∀ q ∈ (Finset.range (cfg.numLocalPhysicalExperts * activeRanks.count true)).filter
      (fun slot => phy2log layer slot = expert),
      q / cfg.numLocalPhysicalExperts < activeRanks.count true := by
    intro q hq
    exact lt_div_of_mem_range (Finset.mem_range.mp (Finset.mem_filter.mp hq).1)
  split_ifs at hslot with hcount
  · rcases Nat.eq_zero_or_pos cfg.numLocalPhysicalExperts with hz | hpos
    · simp [hz, shiftFailed_empty] at hslot
    · rcases mem_shiftFailed hpos activeRanks (fun q hq _ => hrange q hq) hslot with ⟨hlt, -⟩ | ⟨-, h⟩
      · exact absurd hlt (Nat.not_lt_zero _)
      · exact h
  · have hlt := hrange slot hslot
    have hle := count_le_of_forall_lt hw
    exact allActive_of_count hw (Nat.le_of_not_lt hcount) _ (hlt.trans_le hle)

theorem length_rankSlices_flatten (numLocal numActive : Nat) (phy2log : Nat → Nat) :
    (rankSlices numLocal numActive phy2log).flatten.length = numActive * numLocal := by
  simp [rankSlices, length_flatten, Function.comp_def]

theorem mem_of_findNearestExpert {candidates : List Nat} {rank : Nat}
    (h : findNearestExpert candidates numLocal rank = some slot) : slot ∈ candidates := by
  unfold findNearestExpert at h
  split at h
  · cases h
    exact mem_singleton_self slot
  · exact mem_of_find?_eq_some h

theorem mem_initByMapping {phy2log : Nat → List Nat} {layer expert : Nat}
    (h : slot ∈ initByMapping cfg phy2log layer expert) : slot < (phy2log layer).length := by
  have hlt : ∀ {q : Nat}, q ∈ (List.range (phy2log layer).length).filter
      (fun slot => (phy2log layer)[slot]? = some expert) → q < (phy2log layer).length := by
    intro q hq
    exact mem_range.mp (mem_filter.mp hq).1
  unfold initByMapping at h
  simp only [] at h
  split at h
  · next q hq =>
    rw [Finset.mem_singleton] at h
    obtain ⟨rank, -, hq⟩ := bind_eq_some_iff.mp hq
    rw [h]
    exact hlt (mem_of_findNearestExpert hq)
  · exact hlt (mem_toFinset.mp h)

/-- The plan of a rebalance lists slots of active ranks only.  After a scale-up every rank has to be
active, since the slots of the others are given to the expert 0. -/
theorem activeSlot_compute (report : Report) (hw : InWorld cfg s.activeRanks)
    (hscaled : s.hasScaled → AllActive cfg s.activeRanks) (layerIds : List Nat) :
    OnlyActive cfg s.activeRanks (s.computeExpertLocationMetadata cfg report).logicalToAllPhysicalMap
      layerIds := by
  intro layer _ expert slot hslot
  simp only [State.computeExpertLocationMetadata] at hslot
  split_ifs at hslot with hs
  · have hall := hscaled hs
    have hlt := mem_initByMapping hslot
    have hcount : ¬ s.activeRanks.count true < cfg.epSize :=
      Nat.not_lt_of_le (le_count_of_forall hall)
    rw [rebalanceExperts, if_neg hcount, length_rankSlices_flatten, Nat.mul_comm] at hlt
    exact hall _ ((lt_div_of_mem_range hlt).trans_le (count_le_of_forall_lt hw))
  · exact activeSlot_rebalanceExperts hw hslot

/-! ### Installing -/

theorem flatten_chunkFrom {chunkSize : Nat} (hpos : 0 < chunkSize) :
    ∀ {fuel : Nat} {items : List Nat}, items.length ≤ fuel →
      (chunkFrom chunkSize fuel items).flatten = items := by
  intro fuel
  induction fuel with
  | zero =>
    intro items hlen
    rw [length_eq_zero_iff.mp (Nat.le_zero.mp hlen)]
    rfl
  | succ fuel ih =>
    intro items hlen
    cases items with
    | nil => rfl
    | cons item items =>
      rw [chunkFrom, flatten_cons, ih (by simp at hlen ⊢; omega), take_append_drop]
      simp

/-- The chunks are the layers. -/
theorem flatten_updateLayerIdsChunks (cfg : Config) : cfg.updateLayerIdsChunks.flatten = cfg.layerIds := by
  refine flatten_chunkFrom ?_ le_rfl
  split <;> omega

/-- What a sequence of installations leaves as it was, and what it installs. -/
theorem State.installAll_spec {chunks : List (List Nat)} :
    ∀ {s s' : State}, s.installAll cfg plan chunks = some s' →
      s' = { s with logicalToAllPhysicalMap := fun layer =>
        if layer ∈ chunks.flatten then plan.logicalToAllPhysicalMap layer
        else s.logicalToAllPhysicalMap layer } := by
  induction chunks with
  | nil =>
    intro s s' h
    cases h
    simp
  | cons chunk chunks ih =>
    intro s s' h
    obtain ⟨s₁, h₁, h₂⟩ := bind_eq_some_iff.mp h
    rw [State.install] at h₁
    split_ifs at h₁
    cases h₁
    rw [ih h₂]
    congr 1
    funext layer
    by_cases h₁ : layer ∈ chunks.flatten <;> by_cases h₂ : layer ∈ chunk <;> simp [h₁, h₂]

/-! ### Runs -/

/-- What a step needs for its fault to be handled.  A rebalance plans with every rank active if the
world was scaled up.  The rebalance for a fault is not skipped, and a suspended one has no slot of a
failed rank left to install. -/
def Sound (cfg : Config) (s : State) : Action → Prop
  | .fault _ | .beginFault => True
  | .runFault report =>
    s.skipsRebalance cfg report = false ∧ (s.hasScaled → AllActive cfg s.activeRanks) ∧
      ∀ plan chunks, s.generator = .suspended plan chunks →
        OnlyActive cfg s.activeRanks plan.logicalToAllPhysicalMap chunks.flatten
  | .onForwardPassEnd _ =>
    s.generator = .waiting 0 → s.hasScaled → AllActive cfg s.activeRanks

structure Inv (cfg : Config) (s : State) : Prop where
  world : InWorld cfg s.activeRanks
  /-- ranks only fail -/
  later : ∀ rank : Nat, s.activeRanks[rank]? = some true → s.lastActiveRanks[rank]? = some true
  handled : ∀ ranks, s.handled = some ranks → ranks = s.lastActiveRanks
  installed : s.handled = some s.activeRanks →
    OnlyActive cfg s.activeRanks s.logicalToAllPhysicalMap cfg.layerIds
  suspended : s.handled = some s.activeRanks → ∀ plan chunks, s.generator = .suspended plan chunks →
    OnlyActive cfg s.activeRanks plan.logicalToAllPhysicalMap chunks.flatten

theorem Inv.start (h : Starts cfg s) : Inv cfg s where
  world rank hr := (h.active rank).mp hr
  later rank hr := by rw [h.last]; exact hr
  handled ranks hr := by rw [h.unhandled] at hr; cases hr
  installed hr := by rw [h.unhandled] at hr; cases hr
  suspended hr := by rw [h.unhandled] at hr; cases hr

/-- A rank fails. -/
theorem Inv.fault (h : Inv cfg s) (rank : Nat) :
    Inv cfg { s with activeRanks := s.activeRanks.set rank false } := by
  have hsub : ∀ r : Nat, (s.activeRanks.set rank false)[r]? = some true → s.activeRanks[r]? = some true := by
    intro r hr
    rw [getElem?_set] at hr
    split_ifs at hr
    · cases hr
    · exact hr
  -- the handled ranks were active when they were recorded, so nothing has changed
  have hsame : s.handled = some (s.activeRanks.set rank false) →
      s.activeRanks.set rank false = s.activeRanks := by
    intro hh
    have hlast := h.handled _ hh
    refine ext_getElem? fun r => ?_
    rw [getElem?_set]
    split_ifs with hr hlt
    · subst hr
      rcases hact : s.activeRanks[rank]? with - | active
      · rw [getElem?_eq_none_iff] at hact
        omega
      cases active with
      | false => rfl
      | true =>
        have := h.later rank hact
        rw [← hlast, getElem?_set_self hlt] at this
        cases this
    · subst hr
      rw [getElem?_eq_none (by omega)]
    · rfl
  refine ⟨fun r hr => h.world r (hsub r hr), fun r hr => h.later r (hsub r hr), h.handled,
    fun hh => ?_, fun hh => ?_⟩
  · have e := hsame hh
    simp only [e] at hh ⊢
    exact h.installed hh
  · have e := hsame hh
    simp only [e] at hh ⊢
    exact h.suspended hh

theorem OnlyActive.install {map : ExpertMap}
    {layerIds chunk : List Nat} (hm : OnlyActive cfg activeRanks map layerIds)
    (hp : OnlyActive cfg activeRanks plan.logicalToAllPhysicalMap chunk) :
    OnlyActive cfg activeRanks
      (fun layer => if layer ∈ chunk then plan.logicalToAllPhysicalMap layer else map layer) layerIds := by
  intro layer hl expert slot hslot
  simp only [] at hslot
  split_ifs at hslot with hc
  · exact hp layer hc expert slot hslot
  · exact hm layer hl expert slot hslot

/-- The rebalance after a fault installs a plan for the active ranks in every layer. -/
theorem Inv.runFault (h : Inv cfg s) (hc : Sound cfg s (.runFault report))
    (hstep : s.step cfg (.runFault report) = some s') : Inv cfg s' := by
  obtain ⟨hskip, hscaled, hsusp⟩ := hc
  rw [State.step, hskip, if_neg Bool.false_ne_true] at hstep
  split at hstep
  swap
  · cases hstep
  obtain ⟨s₁, h₁, rfl⟩ := map_eq_some_iff.mp hstep
  have e := State.installAll_spec h₁
  rw [flatten_updateLayerIdsChunks] at e
  subst e
  refine ⟨h.world, h.later, fun ranks hr => (some.inj hr).symm, fun _ => ?_,
    fun _ => hsusp⟩
  intro layer hl expert slot hslot
  simp only [if_pos hl] at hslot
  exact activeSlot_compute report h.world hscaled cfg.layerIds layer hl expert slot hslot

/-- A forward pass ends. -/
theorem Inv.resume (h : Inv cfg s) (hc : Sound cfg s (.onForwardPassEnd report))
    (hstep : s.resume cfg report = some s') : Inv cfg s' := by
  rw [State.resume] at hstep
  split at hstep
  · cases hstep
    exact ⟨h.world, h.later, h.handled, h.installed, fun _ _ _ e => nomatch e⟩
  · next hgen =>
    have hplan := activeSlot_compute report h.world (hc hgen)
    simp only [] at hstep
    split at hstep
    · cases hstep
      exact ⟨h.world, h.later, h.handled, h.installed, fun _ _ _ e => nomatch e⟩
    split at hstep
    · cases hstep
      refine ⟨h.world, h.later, h.handled, h.installed, fun _ plan chunks e => ?_⟩
      cases e
      exact hplan _
    · obtain ⟨s₁, h₁, rfl⟩ := map_eq_some_iff.mp hstep
      have e := State.installAll_spec h₁
      subst e
      exact ⟨h.world, h.later, h.handled, fun hh => (h.installed hh).install (hplan _),
        fun _ _ _ e => nomatch e⟩
  · cases hstep
    exact ⟨h.world, h.later, h.handled, h.installed, fun _ _ _ e => nomatch e⟩
  · next plan chunk chunks hgen =>
    obtain ⟨s₁, h₁, rfl⟩ := map_eq_some_iff.mp hstep
    rw [State.install] at h₁
    split_ifs at h₁
    cases h₁
    -- what is left of the plan was all right before, and so is this chunk of it
    have hrest : s.handled = some s.activeRanks →
        OnlyActive cfg s.activeRanks plan.logicalToAllPhysicalMap chunk ∧
          OnlyActive cfg s.activeRanks plan.logicalToAllPhysicalMap chunks.flatten := by
      intro hh
      have hall := h.suspended hh plan _ hgen
      exact ⟨fun layer hl => hall layer (mem_append_left _ hl),
        fun layer hl => hall layer (mem_append_right _ hl)⟩
    split_ifs
    · exact ⟨h.world, h.later, h.handled, fun hh => (h.installed hh).install (hrest hh).1,
        fun _ _ _ e => nomatch e⟩
    · refine ⟨h.world, h.later, h.handled, fun hh => (h.installed hh).install (hrest hh).1,
        fun hh plan' chunks' e => ?_⟩
      cases e
      exact (hrest hh).2

theorem Inv.step {a : Action} (h : Inv cfg s) (hc : Sound cfg s a) (hstep : s.step cfg a = some s') :
    Inv cfg s' := by
  cases a with
  | fault rank =>
    cases hstep
    exact h.fault rank
  | beginFault =>
    rw [State.step] at hstep
    split_ifs at hstep
    cases hstep
    exact ⟨h.world, fun _ hr => hr, fun _ e => (nomatch e), fun e => (nomatch e),
      fun e => (nomatch e)⟩
  | runFault report => exact h.runFault hc hstep
  | onForwardPassEnd report =>
    rw [State.step] at hstep
    split_ifs at hstep
    exact h.resume hc hstep

/-- The states reached from a start by steps that meet a condition. -/
inductive Reach (cfg : Config) (cond : Config → State → Action → Prop) : State → Prop where
  | start {s : State} (h : Starts cfg s) : Reach cfg cond s
  | more {s s' : State} {a : Action} (run : Reach cfg cond s) (hc : cond cfg s a)
      (hstep : s.step cfg a = some s') : Reach cfg cond s'

theorem Reach.inv (run : Reach cfg Sound s) : Inv cfg s := by
  induction run with
  | start h => exact .start h
  | more _ hc hstep ih => exact ih.step hc hstep

/-- **Once a fault is handled for the ranks that are active, every updated layer lists slots of
active ranks only, in every state of a run with sound steps.** -/
theorem fault_handled_lists_active (run : Reach cfg Sound s) (hh : s.handled = some s.activeRanks)
    {layer expert slot : Nat} (hl : layer ∈ cfg.layerIds)
    (hslot : slot ∈ s.logicalToAllPhysicalMap layer expert) : ActiveSlot cfg s.activeRanks slot :=
  run.inv.installed hh layer hl expert slot hslot

/-! ### Three faults that are not handled -/

variable (epSize : Nat)

/-- One slot for each rank, and every slot given to the expert 0. -/
def started (hasScaled : Bool) : State where
  activeRanks := List.replicate epSize true
  lastActiveRanks := List.replicate epSize true
  hasScaled := hasScaled
  pendingEpSize := none
  scalePhase := if hasScaled then .servingExpanded else .idle
  rebalanceDisabled := false
  logicalToAllPhysicalMap _ expert := if expert = 0 then Finset.range epSize else ∅
  generator := .waiting 1
  inFault := false
  handled := none

def oneSlotEach (layerIds : List Nat) (threshold : Rat) : Config where
  epSize := epSize
  numLocalPhysicalExperts := 1
  layerIds := layerIds
  rebalanceNumIterations := 1
  rebalanceLayersPerChunk := some 1
  eplbMinRebalancingUtilizationThreshold := threshold
  dispatchRank := none

theorem starts_started (hasScaled : Bool) (layerIds : List Nat) (threshold : Rat) :
    Starts (oneSlotEach epSize layerIds threshold) (started epSize hasScaled) where
  active rank := by simp [started, oneSlotEach, getElem?_replicate]
  last := rfl
  waiting := rfl
  idle := rfl
  unhandled := rfl

/-- The state reached handles the fault of a rank and lists its slot. -/
def ListsFailed (cfg : Config) (s : State) (layer expert slot : Nat) : Prop :=
  s.handled = some s.activeRanks ∧ layer ∈ cfg.layerIds ∧
    slot ∈ s.logicalToAllPhysicalMap layer expert ∧
    s.activeRanks[slot / cfg.numLocalPhysicalExperts]? = some false

instance (cfg : Config) (s : State) (layer expert slot : Nat) :
    Decidable (ListsFailed cfg s layer expert slot) :=
  inferInstanceAs (Decidable (_ ∧ _))

theorem run_of_decide (cfg : Config) (s : State) (as : List Action) (P : State → Prop)
    [DecidablePred P] (h : (s.run cfg as).any (fun s => decide (P s))) :
    ∃ s', s.run cfg as = some s' ∧ P s' := by
  cases hrun : s.run cfg as with
  | none => simp [hrun] at h
  | some s' => exact ⟨s', rfl, by simpa [hrun] using h⟩

/-- All experts stay where they are. -/
def inPlace (average : Option Rat) : Report := ⟨average, fun _ slot => slot⟩

/-- Every slot is given to the expert 0. -/
def toFirst : Report := ⟨none, fun _ _ => 0⟩

/-- The rebalance for a fault is skipped because the utilization is high; a rebalance that was
suspended before the fault goes on after it; and after a scale-up the slots of the failed rank are
given to the expert 0. -/
theorem fault_handled_lists_failed : (∃ s, (started 2 false).run (oneSlotEach 2 [0] (1 / 2))
      [.fault 1, .beginFault, .runFault (inPlace (some (9 / 10)))] = some s ∧
      ListsFailed (oneSlotEach 2 [0] (1 / 2)) s 0 0 1) ∧
    (∃ s, (started 2 false).run (oneSlotEach 2 [0, 1] 1)
      [.onForwardPassEnd toFirst, .onForwardPassEnd toFirst, .fault 1, .beginFault,
        .runFault toFirst, .onForwardPassEnd toFirst] = some s ∧
      ListsFailed (oneSlotEach 2 [0, 1] 1) s 0 0 1) ∧
    ∃ s, (started 3 true).run (oneSlotEach 3 [0] 1)
      [.fault 2, .beginFault, .runFault (inPlace none)] = some s ∧
      ListsFailed (oneSlotEach 3 [0] 1) s 0 0 2 := by
  refine ⟨run_of_decide _ _ _ _ ?_, run_of_decide _ _ _ _ ?_, run_of_decide _ _ _ _ ?_⟩
  all_goals decide +kernel

theorem fault_handled_lists_active_two_ranks : ∃ s, (started 2 false).run (oneSlotEach 2 [0] 1)
    [.fault 1, .beginFault, .runFault toFirst] = some s ∧ s.handled = some s.activeRanks ∧
      0 ∈ s.logicalToAllPhysicalMap 0 0 ∧ ActiveSlot (oneSlotEach 2 [0] 1) s.activeRanks 0 := by
  obtain ⟨s, hrun, hh, hslot⟩ := run_of_decide (oneSlotEach 2 [0] 1) (started 2 false)
    [.fault 1, .beginFault, .runFault toFirst]
    (fun s => s.handled = some s.activeRanks ∧ 0 ∈ s.logicalToAllPhysicalMap 0 0) (by decide +kernel)
  obtain ⟨s₁, h₁, hrun₁⟩ := bind_eq_some_iff.mp hrun
  obtain ⟨s₂, h₂, hrun₂⟩ := bind_eq_some_iff.mp hrun₁
  obtain ⟨s₃, h₃, hrun₃⟩ := bind_eq_some_iff.mp hrun₂
  have reach₁ : Reach (oneSlotEach 2 [0] 1) Sound s₁ :=
    .more (a := .fault 1) (.start (starts_started 2 false [0] 1)) trivial h₁
  have reach₂ : Reach (oneSlotEach 2 [0] 1) Sound s₂ := .more (a := .beginFault) reach₁ trivial h₂
  cases hrun₃
  cases h₁
  cases h₂
  have reach : Reach (oneSlotEach 2 [0] 1) Sound s :=
    .more (a := .runFault toFirst) reach₂ ⟨rfl, fun e => (nomatch e), fun _ _ e => (nomatch e)⟩ h₃
  exact ⟨s, hrun, hh, hslot, fault_handled_lists_active reach hh (mem_singleton_self 0) hslot⟩

end SglangRuntime.Eplb
