import SglangRuntime.Eplb.UpdatePlan
import Mathlib.Algebra.BigOperators.Group.Finset.Piecewise
import Mathlib.Algebra.Order.BigOperators.Group.Finset

/-!
# Expert parallelism — the weights arrive

The plans of two ranks fit together batch by batch (`forall₂_sends_recvs`): what one sends to the
other is what the other receives from it, in the same order.  On this rests that no rank waits for
ever (`finished_of_stuck`): the rank that waits in the lowest batch waits for a rank that is in the
same batch, or that has left it, and then all that the two exchange in it has moved.

The contents are followed by `Inv`: weights are as they were until their rank finishes, and every
value that is written to a buffer is the one that the new map asks for.
-/

namespace SglangRuntime.Eplb

open Foundation List Function Option

namespace Redistribution

variable {R : Redistribution} {rank x e a b batch : Nat}

/-! ### The plans fit together -/

variable (layer : Layer) {p q : RankPlan} {α : Type*} {op : P2POp} {t y r : Nat} {st : Stage}

variable (dsts : List Nat)

theorem opsWith_true_isendOps (hdsts : dsts.Nodup) :
    opsWith true b (layer.isendOps x dsts) =
      if b ∈ dsts then (List.range layer.numTensors).map fun i => ⟨true, i, x, b⟩ else [] := by
  have hfilter : opsWith true b (layer.isendOps x dsts) =
      layer.isendOps x (dsts.filter fun c => c = b) := by
    rw [← filter_isendOps, opsWith]
    refine filter_congr fun op hop => ?_
    obtain ⟨c, -, i, -, rfl⟩ := (mem_isendOps layer x).mp hop
    simp
  rw [hfilter]
  split_ifs with hb
  · have hone : (dsts.filter fun c => decide (c = b)) = [b] := by
      rw [filter_eq, count_eq_one_of_mem hdsts hb, replicate_one]
    rw [hone, Layer.isendOps, flatMap_singleton]
  · have hnil : (dsts.filter fun c => decide (c = b)) = [] := by
      refine filter_eq_nil_iff.mpr fun c hc hcb => hb ?_
      exact of_decide_eq_true hcb ▸ hc
    rw [hnil]
    rfl

theorem opsWith_false_isendOps :
    opsWith false a (layer.isendOps x dsts) = [] := by
  refine filter_eq_nil_iff.mpr fun op hop => ?_
  obtain ⟨c, -, i, -, rfl⟩ := (mem_isendOps layer x).mp hop
  simp

theorem opsWith_true_irecvOps (c : Nat) : opsWith true b (layer.irecvOps x c) = [] := by
  refine filter_eq_nil_iff.mpr fun op hop => ?_
  obtain ⟨i, -, rfl⟩ := (mem_irecvOps layer x).mp hop
  simp

theorem opsWith_false_irecvOps (c : Nat) :
    opsWith false a (layer.irecvOps x c) = if c = a then layer.irecvOps x a else [] := by
  split_ifs with hc
  · subst hc
    refine filter_eq_self.mpr fun op hop => ?_
    obtain ⟨i, -, rfl⟩ := (mem_irecvOps layer x).mp hop
    simp
  · refine filter_eq_nil_iff.mpr fun op hop => ?_
    obtain ⟨i, -, rfl⟩ := (mem_irecvOps layer x).mp hop
    simpa using hc

namespace Planned

variable {p q : RankPlan}

/-- What a rank sends of an expert to another. -/
theorem opsWith_true (hp : R.Planned a p) (b e : Nat) :
    (R.source b e = some a ∧ R.isActive b ∧
      ∃ x ∈ R.slots a, R.old[x]? = some e ∧
        opsWith true b (p.opsByExpert e) =
          (List.range R.layer.numTensors).map fun i => ⟨true, i, x, b⟩) ∨
    (¬ (R.source b e = some a ∧ R.isActive b) ∧
      opsWith true b (p.opsByExpert e) = []) := by
  have hposts := hp.posts e
  generalize p.opsByExpert e = ops at hposts ⊢
  cases hposts with
  | recv x c hx hc =>
    refine .inr ⟨fun h => (held_of_chosenSrcRank hc).2.2 (held_of_chosenSrcRank h.1).1, ?_⟩
    split_ifs
    · exact opsWith_true_irecvOps R.layer c
    · rfl
  | send x dsts hx hxe hnodup hmem =>
    rw [opsWith_true_isendOps R.layer dsts hnodup]
    by_cases hb : R.source b e = some a ∧ R.isActive b
    · exact .inl ⟨hb.1, hb.2, x, hx, hxe, if_pos ((hmem b).mpr hb)⟩
    · exact .inr ⟨hb, if_neg fun h => hb ((hmem b).mp h)⟩
  | nothing hheld => exact .inr ⟨fun h => hheld (held_of_chosenSrcRank h.1).1, rfl⟩

/-- What a rank receives of an expert from another. -/
theorem opsWith_false (hq : R.Planned b q) (a e : Nat) :
    (R.source b e = some a ∧ R.isActive a ∧
      ∃ x, R.FirstSlot b e x ∧ opsWith false a (q.opsByExpert e) = R.layer.irecvOps x a) ∨
    (¬ (R.source b e = some a ∧ R.isActive a) ∧
      opsWith false a (q.opsByExpert e) = []) := by
  have hposts := hq.posts e
  generalize q.opsByExpert e = ops at hposts ⊢
  cases hposts with
  | recv x c hx hc =>
    by_cases h : c = a ∧ R.isActive c
    · obtain ⟨rfl, hact⟩ := h
      refine .inl ⟨hc, hact, x, hx, ?_⟩
      rw [if_pos hact, opsWith_false_irecvOps, if_pos rfl]
    refine .inr ⟨fun h' => h ?_, ?_⟩
    · obtain rfl := some.inj (hc.symm.trans h'.1)
      exact ⟨rfl, h'.2⟩
    · split_ifs with hact
      · rw [opsWith_false_irecvOps, if_neg fun hca => h ⟨hca, hact⟩]
      · rfl
  | send x dsts hx hxe =>
    exact .inr ⟨fun h => (held_of_chosenSrcRank h.1).2.2 ⟨x, hx, hxe⟩,
      opsWith_false_isendOps R.layer dsts⟩
  | nothing _ hnone => exact .inr ⟨fun h => (nomatch hnone.symm.trans h.1), rfl⟩

end Planned

/-- The two operations are about the same tensor of the same expert. -/
def Matches (send recv : P2POp) : Prop :=
  send.tensor = recv.tensor ∧
    ∃ e, layer.oldPhysicalToLogicalMap[send.location]? = some e ∧
      layer.newPhysicalToLogicalMap[recv.location]? = some e

/-- What one rank sends of an expert to another is what that receives of it. -/
theorem forall₂_opsByExpert (hp : R.Planned a p) (hq : R.Planned b q)
    (ha : R.isActive a) (hb : R.isActive b) (e : Nat) :
    List.Forall₂ (Matches R.layer) (opsWith true b (p.opsByExpert e))
      (opsWith false a (q.opsByExpert e)) := by
  rcases hp.opsWith_true b e with ⟨hc, -, x, -, hxe, hsend⟩ | ⟨hnot, hsend⟩
  · rcases hq.opsWith_false a e with ⟨-, -, y, hy, hrecv⟩ | ⟨hnot, -⟩
    · rw [hsend, hrecv, Layer.irecvOps, forall₂_map_left_iff, forall₂_map_right_iff]
      exact forall₂_same.mpr fun i _ => ⟨rfl, e, hxe, hy.2.1⟩
    · exact absurd ⟨hc, ha⟩ hnot
  · rcases hq.opsWith_false a e with ⟨hc, -⟩ | ⟨-, hrecv⟩
    · exact absurd ⟨hc, hb⟩ hnot
    · rw [hsend, hrecv]
      exact List.Forall₂.nil

theorem planned_of_plan (hr : rank < R.worldSize) (hplan : R.plan rank = some p) :
    R.Planned rank p := by
  obtain ⟨p', hplan', hp⟩ := exists_planned hr
  rwa [some.inj (hplan.symm.trans hplan')]

theorem opsWith_flatMap (isend : Bool) (peer : Nat) (l : List α) (f : α → List P2POp) :
    opsWith isend peer (l.flatMap f) = l.flatMap fun i => opsWith isend peer (f i) := by
  rw [opsWith, filter_flatMap]
  rfl

theorem sends_eq (hplan : R.plan a = some p) (b batch : Nat) :
    R.sends a b batch = (R.layer.batchEids R.batchChunkSize batch).flatMap fun e =>
      opsWith true b (p.opsByExpert e) := by
  rw [sends, ops, hplan]
  exact opsWith_flatMap _ _ _ _

theorem recvs_eq (hplan : R.plan b = some q) (a batch : Nat) :
    R.recvs b a batch = (R.layer.batchEids R.batchChunkSize batch).flatMap fun e =>
      opsWith false a (q.opsByExpert e) := by
  rw [recvs, ops, hplan]
  exact opsWith_flatMap _ _ _ _

theorem forall₂_flatMap {β γ : Type*} {r : β → γ → Prop} {f : α → List β} {g : α → List γ}
    (l : List α) (h : ∀ i ∈ l, List.Forall₂ r (f i) (g i)) :
    List.Forall₂ r (l.flatMap f) (l.flatMap g) := by
  induction l with
  | nil => exact List.Forall₂.nil
  | cons i l ih =>
    exact rel_append (h i mem_cons_self) (ih fun j hj => h j (mem_cons_of_mem _ hj))

/-- In a batch, what one rank sends to another is what that receives from it. -/
theorem forall₂_sends_recvs (ha : R.Participates a) (hb : R.Participates b) (batch : Nat) :
    List.Forall₂ (Matches R.layer) (R.sends a b batch) (R.recvs b a batch) := by
  obtain ⟨p, hplan, hp⟩ := exists_planned ha.1
  obtain ⟨q, hqlan, hq⟩ := exists_planned hb.1
  rw [sends_eq hplan, recvs_eq hqlan]
  exact forall₂_flatMap _ fun e _ => forall₂_opsByExpert hp hq ha.2 hb.2 e

/-! What the operations are about. -/

theorem mem_sends (ha : a < R.worldSize) (h : op ∈ R.sends a b batch) :
    op.location ∈ R.slots a ∧ R.isActive b ∧
      ∃ e, R.old[op.location]? = some e ∧
        R.source b e = some a := by
  obtain ⟨p, hplan, hp⟩ := exists_planned ha
  rw [sends_eq hplan] at h
  obtain ⟨e, -, hop⟩ := mem_flatMap.mp h
  rcases hp.opsWith_true b e with ⟨hc, hb, x, hx, hxe, hsend⟩ | ⟨-, hsend⟩
  · rw [hsend] at hop
    obtain ⟨i, -, rfl⟩ := mem_map.mp hop
    exact ⟨hx, hb, e, hxe, hc⟩
  · rw [hsend] at hop
    exact absurd hop not_mem_nil

theorem mem_recvs (hb : b < R.worldSize) (h : op ∈ R.recvs b a batch) :
    R.isActive a ∧
      ∃ e, R.FirstSlot b e op.location ∧ R.source b e = some a := by
  obtain ⟨q, hplan, hq⟩ := exists_planned hb
  rw [recvs_eq hplan] at h
  obtain ⟨e, -, hop⟩ := mem_flatMap.mp h
  rcases hq.opsWith_false a e with ⟨hc, ha, x, hx, hrecv⟩ | ⟨-, hrecv⟩
  · rw [hrecv] at hop
    obtain ⟨i, -, rfl⟩ := (mem_irecvOps R.layer x).mp hop
    exact ⟨ha, e, hx, hc⟩
  · rw [hrecv] at hop
    exact absurd hop not_mem_nil

/-- An expert is in one of the batches. -/
theorem mem_batchEids (he : e < R.layer.numPhysicalExperts) : e / R.batchChunkSize < R.numBatches ∧
      e ∈ R.layer.batchEids R.batchChunkSize (e / R.batchChunkSize) := by
  have hpos := R.batchChunkSize_pos
  have hle := Nat.div_mul_le_self e R.batchChunkSize
  have hlt := Nat.lt_div_mul_add hpos (a := e)
  constructor
  · rw [numBatches, Layer.numBatches, ← Nat.succ_le_iff, Nat.le_div_iff_mul_le hpos, Nat.succ_mul]
    omega
  · rw [Layer.batchEids, mem_range'_1]
    omega

theorem mem_recvs_of_firstSlot (hb : b < R.worldSize) (hx : R.FirstSlot b e x)
    (hc : R.source b e = some a) (ha : R.isActive a) (ht : t < R.layer.numTensors) :
    ∃ batch < R.numBatches, (⟨false, t, x, a⟩ : P2POp) ∈ R.recvs b a batch := by
  obtain ⟨q, hplan, hq⟩ := exists_planned hb
  have he : e < R.layer.numPhysicalExperts :=
    R.old_lt e (R.new_mem_old e (mem_of_getElem? hx.2.1))
  obtain ⟨hlt, hmem⟩ := mem_batchEids he
  refine ⟨_, hlt, ?_⟩
  rw [recvs_eq hplan, mem_flatMap]
  refine ⟨e, hmem, ?_⟩
  rcases hq.opsWith_false a e with ⟨-, -, y, hy, hrecv⟩ | ⟨hnot, -⟩
  · rw [hrecv, hx.unique hy]
    exact (mem_irecvOps R.layer y).mpr ⟨t, ht, rfl⟩
  · exact absurd ⟨hc, ha⟩ hnot

/-- Slots belong to one rank. -/
theorem local_unique (ha : y ∈ R.slots a) (hb : y ∈ R.slots b) : a = b := by
  rw [mem_localExpertLocations] at ha hb
  have h1 := ha.1.trans_lt hb.2
  have h2 := hb.1.trans_lt ha.2
  rw [← Nat.succ_mul] at h1 h2
  exact le_antisymm (Nat.lt_succ_iff.mp (Nat.lt_of_mul_lt_mul_right h1))
    (Nat.lt_succ_iff.mp (Nat.lt_of_mul_lt_mul_right h2))

/-! ### What a step does -/

section Steps

variable {W : Type*} {s s' : System W} {src dst : Nat}

theorem step_start (h : R.step s (.start rank) = some s') :
    ∃ p, R.plan rank = some p ∧ R.Participates rank ∧ s.stage rank = .fresh ∧
      s' = { s with
        tempBuffers := copyAll R.layer.numTensors s.weights p.sameGpuCopies s.tempBuffers
        stage := update s.stage rank (.ready 0) } := by
  rw [step] at h
  split at h
  · exact absurd h (by simp)
  · next p hp =>
    split_ifs at h with hcond
    exact ⟨p, hp, hcond.1, hcond.2, (some.inj h).symm⟩

theorem step_post (h : R.step s (.post rank) = some s') :
    ∃ batch < R.numBatches, s.stage rank = .ready batch ∧
      s' = { s with stage := update s.stage rank (.posted batch) } := by
  rw [step] at h
  split at h
  · next batch hstage =>
    split_ifs at h with hlt
    exact ⟨batch, hlt, hstage, (some.inj h).symm⟩
  · exact absurd h (by simp)

theorem step_move (h : R.step s (.move src dst) = some s') :
    ∃ batch send recv, s.stage src = .posted batch ∧ s.stage dst = .posted batch ∧
      (R.sends src dst batch)[s.moved src dst batch]? = some send ∧
      (R.recvs dst src batch)[s.moved src dst batch]? = some recv ∧
      s' = { s with
        tempBuffers := update s.tempBuffers (recv.tensor, recv.location)
          (s.weights (send.tensor, send.location))
        moved := fun a b k =>
          if a = src ∧ b = dst ∧ k = batch then s.moved a b k + 1 else s.moved a b k } := by
  rw [step] at h
  split at h
  · next batch hsrc =>
    split_ifs at h with hdst
    split at h
    · next send recv hsend hrecv =>
      exact ⟨batch, send, recv, hsrc, hdst, hsend, hrecv, (some.inj h).symm⟩
    · exact absurd h (by simp)
  · exact absurd h (by simp)

theorem step_wait (h : R.step s (.wait rank) = some s') : ∃ batch, s.stage rank = .posted batch ∧
      (∀ op ∈ R.ops rank batch, R.opDone s rank batch op) ∧
      s' = { s with stage := update s.stage rank (.ready (batch + 1)) } := by
  rw [step] at h
  split at h
  · next batch hstage =>
    split_ifs at h with hall
    exact ⟨batch, hstage, all_eq_true.mp hall, (some.inj h).symm⟩
  · exact absurd h (by simp)

theorem step_finish (h : R.step s (.finish rank) = some s') :
    ∃ p, R.plan rank = some p ∧ s.stage rank = .ready R.numBatches ∧
      s' = { s with
        weights := copyAll R.layer.numTensors s.tempBuffers p.buffer2weightCopyInfos s.weights
        stage := update s.stage rank .finished } := by
  rw [step] at h
  split at h
  · next batch p hstage hp =>
    split_ifs at h with hlast
    exact ⟨p, hp, hlast ▸ hstage, (some.inj h).symm⟩
  · exact absurd h (by simp)

/-- A slot of a copied table is as before, or is what the last copy into it brings. -/
theorem copyAll_cases {T : Nat} (src : Table W) (copies : List (Nat × Nat)) :
    ∀ (dst : Table W) (p : Nat × Nat),
      (copyAll T src copies dst p = dst p ∧ (p.1 < T → ∀ y, (y, p.2) ∉ copies)) ∨
      ∃ y, (y, p.2) ∈ copies ∧ copyAll T src copies dst p = src (p.1, y) := by
  induction copies with
  | nil => exact fun dst p => .inl ⟨rfl, fun _ _ h => (nomatch h)⟩
  | cons copy copies ih =>
    intro dst p
    rcases ih (fun p => if p.1 < T ∧ p.2 = copy.2 then src (p.1, copy.1) else dst p) p with
      ⟨heq, hno⟩ | ⟨y, hy, heq⟩
    · by_cases hp : p.1 < T ∧ p.2 = copy.2
      · refine .inr ⟨copy.1, hp.2 ▸ mem_cons_self, heq.trans (if_pos hp)⟩
      · refine .inl ⟨heq.trans (if_neg hp), fun ht y hy => ?_⟩
        rcases mem_cons.mp hy with hy | hy
        · exact hp ⟨ht, hy ▸ rfl⟩
        · exact hno ht y hy
    · exact .inr ⟨y, mem_cons_of_mem _ hy, heq⟩

end Steps

/-! ### The invariant -/

/-- The rank has left the batch behind. -/
def Passed (R : Redistribution) (batch : Nat) : Stage → Prop
  | .fresh => False
  | .ready k | .posted k => batch < k
  | .finished => batch < R.numBatches

variable {W : Type*} {weights : Table W} {s s' : System W}

/-- Slots with the same expert hold the same weights. -/
def ReplicasAgree (R : Redistribution) (weights : Table W) : Prop :=
  ∀ x y e, R.old[x]? = some e →
    R.old[y]? = some e → ∀ t, weights (t, x) = weights (t, y)

/-- The value is that of the expert that the new map asks for in the slot. -/
def Wanted (R : Redistribution) (weights : Table W) (p : Nat × Nat) (w : W) : Prop :=
  ∀ e, R.new[p.2]? = some e →
    ∀ y, R.old[y]? = some e → w = weights (p.1, y)

/-- What holds of a rank at a stage, given the weights at the start. -/
structure RankOk (R : Redistribution) (weights : Table W) (s : System W) (r : Nat) (st : Stage) :
    Prop where
  participates : st ≠ .fresh → R.Participates r
  ready_le : ∀ k, st = .ready k → k ≤ R.numBatches := by nofun
  posted_lt : ∀ k, st = .posted k → k < R.numBatches := by nofun
  passed : ∀ k, R.Passed k st → ∀ p, s.moved r p k = (R.sends r p k).length ∧
    s.moved p r k = (R.recvs r p k).length
  kept : st ≠ .finished → ∀ x ∈ R.slots r, ∀ t,
    s.weights (t, x) = weights (t, x)
  copied : ∀ p, R.plan r = some p → st ≠ .fresh → ∀ y x, (y, x) ∈ p.sameGpuCopies →
    ∀ t < R.layer.numTensors, R.Wanted weights (t, x) (s.tempBuffers (t, x))
  placed : ∀ p, R.plan r = some p → st = .finished →
    ∀ x ∈ R.slots r, ∀ e, R.new[x]? = some e →
      (∀ t < R.layer.numTensors, R.Wanted weights (t, x) (s.weights (t, x))) ∨
        e ∈ p.missingLogicalExpertsInfo := by nofun

/-- What holds in every state. -/
structure Inv (R : Redistribution) (weights : Table W) (s : System W) : Prop where
  rank : ∀ r, R.RankOk weights s r (s.stage r)
  moved_le : ∀ a b k, s.moved a b k ≤ (R.sends a b k).length ∧
    s.moved a b k ≤ (R.recvs b a k).length
  received : ∀ a b k, ∀ op ∈ (R.recvs b a k).take (s.moved a b k),
    R.Wanted weights (op.tensor, op.location) (s.tempBuffers (op.tensor, op.location))

theorem Inv.at (hs : R.Inv weights s) (h : s.stage r = st) : R.RankOk weights s r st :=
  h ▸ hs.rank r

theorem Inv.initial (R : Redistribution) (weights tempBuffers : Table W) :
    R.Inv weights (initial weights tempBuffers) where
  rank _ :=
    { participates := fun h => absurd rfl h
      passed := fun _ h => h.elim
      kept := fun _ _ _ _ => rfl
      copied := fun _ _ h => absurd rfl h
      ready_le := nofun
      posted_lt := nofun
      placed := nofun }
  moved_le _ _ _ := ⟨Nat.zero_le _, Nat.zero_le _⟩
  received _ _ _ _ hop := absurd hop not_mem_nil

/-- What is read from a slot that was not written yet is wanted in every slot for its expert. -/
theorem ReplicasAgree.wanted (hw : R.ReplicasAgree weights) {x e : Nat} (hy : R.old[y]? = some e)
    (hx : R.new[x]? = some e) : R.Wanted weights (t, x) (weights (t, y)) := by
  intro e' he' z hz
  obtain rfl := some.inj (hx.symm.trans he')
  exact hw y z e hy hz t

/-- Buffers that change only to what is wanted in them. -/
theorem Inv.buffers (hs : R.Inv weights s) (temp : Table W)
    (hwrites : ∀ p, temp p = s.tempBuffers p ∨ R.Wanted weights p (temp p)) :
    R.Inv weights { s with tempBuffers := temp } := by
  have hkeep : ∀ p, R.Wanted weights p (s.tempBuffers p) → R.Wanted weights p (temp p) := by
    intro p hp
    rcases hwrites p with h | h
    · rwa [h]
    · exact h
  exact { hs with
    rank := fun r =>
      { hs.rank r with
        copied := fun p hp hr y x hyx t ht => hkeep _ ((hs.rank r).copied p hp hr y x hyx t ht) }
    received := fun a b k op hop => hkeep _ (hs.received a b k op hop) }

/-- A rank that goes to another stage, and may write its own weights. -/
theorem Inv.stage (hs : R.Inv weights s) {now : Table W}
    (hothers : ∀ q, q ≠ r → ∀ x ∈ R.slots q, ∀ t,
      now (t, x) = s.weights (t, x)) (hr : R.RankOk weights { s with weights := now } r st) :
    R.Inv weights { s with weights := now, stage := update s.stage r st } where
  rank q := by
    rcases eq_or_ne q r with rfl | hne
    · simp only [update_self]
      exact { hr with }
    simp only [update_of_ne hne]
    exact { hs.rank q with
      kept := fun hq x hx t => (hothers q hne x hx t).trans ((hs.rank q).kept hq x hx t)
      placed := fun p hp hq x hx e he => ((hs.rank q).placed p hp hq x hx e he).imp_left
        fun hwanted t ht => by simpa only [hothers q hne x hx t] using hwanted t ht }
  moved_le := hs.moved_le
  received := hs.received

theorem Inv.start (hw : R.ReplicasAgree weights) (hs : R.Inv weights s)
    (h : R.step s (.start rank) = some s') : R.Inv weights s' := by
  obtain ⟨p, hplan, hr, hfresh, rfl⟩ := step_start h
  have hp := planned_of_plan hr.1 hplan
  -- a copy within the rank takes the weights of the start
  have hcopy : ∀ y x t, (y, x) ∈ p.sameGpuCopies → R.Wanted weights (t, x) (s.weights (t, y)) := by
    intro y x t hyx
    obtain ⟨hx, hcase⟩ := (hp.sameGpu y x).mp hyx
    obtain ⟨e, hxe, -⟩ := exists_new_of_local hr.1 hx
    obtain ⟨hy, hye⟩ := caseOf_of_handleRecv hx hxe hcase
    rw [(hs.at hfresh).kept nofun y hy t]
    exact hw.wanted hye hxe
  have hcases := copyAll_cases (T := R.layer.numTensors) s.weights p.sameGpuCopies s.tempBuffers
  have hbuf := hs.buffers _ fun q => (hcases q).imp And.left fun ⟨y, hy, heq⟩ => heq ▸ hcopy y _ _ hy
  refine hbuf.stage (fun _ _ _ _ _ => rfl)
    { participates := fun _ => hr
      ready_le := fun k hk => Stage.ready.inj hk ▸ Nat.zero_le _
      passed := fun k hk => absurd hk (Nat.not_lt_zero k)
      kept := fun _ => (hs.at hfresh).kept nofun
      copied := fun p' hp' _ y x hyx t ht => ?_ }
  obtain rfl := some.inj (hplan.symm.trans hp')
  rcases hcases (t, x) with ⟨-, hno⟩ | ⟨z, hz, heq⟩
  · exact absurd hyx (hno ht y)
  · have hwanted := hcopy z x t hz
    rwa [← heq] at hwanted

section

variable (hs : R.Inv weights s)
include hs

theorem Inv.post (h : R.step s (.post rank) = some s') :
    R.Inv weights s' := by
  obtain ⟨batch, hlt, hstage, rfl⟩ := step_post h
  have hr := hs.at hstage
  exact hs.stage (fun _ _ _ _ _ => rfl)
    { participates := fun _ => hr.participates nofun
      posted_lt := fun k hk => Stage.posted.inj hk ▸ hlt
      passed := hr.passed
      kept := fun _ => hr.kept nofun
      copied := fun p hp _ => hr.copied p hp nofun }

/-- When the operations of a batch are done, all that the rank exchanges in it has moved. -/
theorem Inv.moved_of_opDone
    (hdone : ∀ op ∈ R.ops rank batch, R.opDone s rank batch op) (p : Nat) :
    s.moved rank p batch = (R.sends rank p batch).length ∧
      s.moved p rank batch = (R.recvs rank p batch).length := by
  have all : ∀ {l : List P2POp} {n : Nat}, n ≤ l.length → (∀ op ∈ l, n = l.length) →
      n = l.length := by
    rintro (- | ⟨op, l⟩) n hle hall
    · exact Nat.le_zero.mp hle
    · exact hall op mem_cons_self
  constructor
  · refine all (hs.moved_le rank p batch).1 fun op hop => ?_
    obtain ⟨hmem, hpeer⟩ := mem_filter.mp hop
    obtain ⟨hsend, rfl⟩ := of_decide_eq_true hpeer
    simpa [opDone, hsend] using hdone op hmem
  · refine all (hs.moved_le p rank batch).2 fun op hop => ?_
    obtain ⟨hmem, hpeer⟩ := mem_filter.mp hop
    obtain ⟨hrecv, rfl⟩ := of_decide_eq_true hpeer
    simpa [opDone, hrecv] using hdone op hmem

theorem Inv.wait (h : R.step s (.wait rank) = some s') :
    R.Inv weights s' := by
  obtain ⟨batch, hstage, hdone, rfl⟩ := step_wait h
  have hr := hs.at hstage
  refine hs.stage (fun _ _ _ _ _ => rfl)
    { participates := fun _ => hr.participates nofun
      ready_le := fun k hk => Stage.ready.inj hk ▸ hr.posted_lt batch rfl
      passed := fun k hk => ?_
      kept := fun _ => hr.kept nofun
      copied := fun p hp _ => hr.copied p hp nofun }
  rcases Nat.lt_succ_iff_lt_or_eq.mp hk with hlt | rfl
  · exact hr.passed k hlt
  · exact hs.moved_of_opDone hdone

end

/-- The operations of a pair that are moved together match. -/
theorem matches_of_getElem? {send recv : P2POp} {i : Nat} (ha : R.Participates a)
    (hb : R.Participates b) (hsend : (R.sends a b batch)[i]? = some send)
    (hrecv : (R.recvs b a batch)[i]? = some recv) : Matches R.layer send recv := by
  obtain ⟨hi, rfl⟩ := List.getElem?_eq_some_iff.mp hsend
  obtain ⟨hj, rfl⟩ := List.getElem?_eq_some_iff.mp hrecv
  exact (forall₂_sends_recvs ha hb batch).get hi hj

theorem Inv.move (hw : R.ReplicasAgree weights) (hs : R.Inv weights s) {src dst : Nat}
    (h : R.step s (.move src dst) = some s') : R.Inv weights s' := by
  obtain ⟨batch, send, recv, hsrc, hdst, hsend, hrecv, rfl⟩ := step_move h
  have hps := (hs.at hsrc).participates nofun
  have hpd := (hs.at hdst).participates nofun
  -- the weights that are sent are as they were at the start, and wanted where they go
  have hwanted : R.Wanted weights (recv.tensor, recv.location)
      (s.weights (send.tensor, send.location)) := by
    obtain ⟨hlocal, -⟩ := mem_sends hps.1 (mem_of_getElem? hsend)
    obtain ⟨htensor, e, hold, hnew⟩ := matches_of_getElem? hps hpd hsend hrecv
    rw [(hs.at hsrc).kept nofun _ hlocal, htensor]
    exact hw.wanted hold hnew
  have hbuf := hs.buffers (update s.tempBuffers (recv.tensor, recv.location)
    (s.weights (send.tensor, send.location))) fun q => by
      rcases eq_or_ne q (recv.tensor, recv.location) with rfl | hne
      · exact .inr (by rwa [update_self])
      · exact .inl (update_of_ne hne _ _)
  -- a rank in a batch has not passed it
  have hother : ∀ r k, R.Passed k (s.stage r) → ∀ q, ¬ (r = src ∧ q = dst ∧ k = batch) ∧
      ¬ (q = src ∧ r = dst ∧ k = batch) := by
    intro r k hk q
    constructor
    · rintro ⟨rfl, -, rfl⟩
      rw [hsrc] at hk
      exact lt_irrefl _ hk
    · rintro ⟨-, rfl, rfl⟩
      rw [hdst] at hk
      exact lt_irrefl _ hk
  refine
    { rank := fun r => { hbuf.rank r with passed := fun k hk q => ?_ }
      moved_le := fun a b k => ?_
      received := ?_ }
  · obtain ⟨h1, h2⟩ := hother r k hk q
    simp only [if_neg h1, if_neg h2]
    exact (hs.rank r).passed k hk q
  · simp only
    split_ifs with heq
    · obtain ⟨rfl, rfl, rfl⟩ := heq
      exact ⟨(List.getElem?_eq_some_iff.mp hsend).1, (List.getElem?_eq_some_iff.mp hrecv).1⟩
    · exact hs.moved_le a b k
  · intro a b k op hop
    simp only at hop
    split_ifs at hop with heq
    · obtain ⟨rfl, rfl, rfl⟩ := heq
      rw [take_add_one, hrecv] at hop
      rcases mem_append.mp hop with hop | hop
      · exact hbuf.received a b k op hop
      · obtain rfl : op = recv := by simpa using hop
        simp only [update_self]
        exact hwanted
    · exact hbuf.received a b k op hop

/-- A rank that has passed all batches has what it lacked, where the source was active. -/
theorem Inv.wanted_firstSlot (hs : R.Inv weights s) (hr : R.Participates rank)
    (hpassed : ∀ k < R.numBatches, R.Passed k (s.stage rank)) (hy : R.FirstSlot rank e y)
    (ha : R.source rank e = some a) (hact : R.isActive a)
    (ht : t < R.layer.numTensors) : R.Wanted weights (t, y) (s.tempBuffers (t, y)) := by
  obtain ⟨k, hk, hop⟩ := mem_recvs_of_firstSlot hr.1 hy ha hact ht
  have hreceived := hs.received a rank k ⟨false, t, y, a⟩
  rw [((hs.rank rank).passed k (hpassed k hk) a).2, take_length] at hreceived
  exact hreceived hop

/-- The copies from the buffers bring what is wanted to every slot, or the expert is missing. -/
theorem Inv.wanted_copyAll (hw : R.ReplicasAgree weights) (hs : R.Inv weights s)
    (hr : R.Participates rank) (hplan : R.plan rank = some p) (hp : R.Planned rank p)
    (hstage : s.stage rank = .ready R.numBatches) (hx : x ∈ R.slots rank)
    (hxe : R.new[x]? = some e) :
    (∀ t < R.layer.numTensors, R.Wanted weights (t, x)
      (copyAll R.layer.numTensors s.tempBuffers p.buffer2weightCopyInfos s.weights (t, x))) ∨
        e ∈ p.missingLogicalExpertsInfo := by
  obtain ⟨case, hcase, hspec⟩ := exists_recvCase hx hxe
  have hcopies : ∀ y, (y, x) ∈ p.buffer2weightCopyInfos ↔ case.buffer2weightCopy x = some (y, x) := by
    intro y
    rw [hp.toWeights]
    constructor
    · rintro ⟨-, case', hcase', hcopy⟩
      obtain rfl := some.inj (hcase.symm.trans hcase')
      exact hcopy
    · exact fun hcopy => ⟨hx, case, hcase, hcopy⟩
  -- where there is a copy into the slot, it is the one of the case
  have hcopied : ∀ y t, t < R.layer.numTensors → case.buffer2weightCopy x = some (y, x) →
      copyAll R.layer.numTensors s.tempBuffers p.buffer2weightCopyInfos s.weights (t, x) =
        s.tempBuffers (t, y) := by
    intro y t ht hcopy
    rcases copyAll_cases s.tempBuffers p.buffer2weightCopyInfos s.weights (t, x) with
      ⟨-, hno⟩ | ⟨z, hz, heq⟩
    · exact absurd ((hcopies y).mpr hcopy) (hno ht y)
    · have hzy := ((hcopies z).mp hz).symm.trans hcopy
      rw [heq, (Prod.mk.inj (some.inj hzy)).1]
  -- an expert that the rank lacks is wanted in its first slot
  have hreceive : ∀ y, R.FirstSlot rank e y → case.buffer2weightCopy x = some (y, x) →
      R.Lacks rank e →
      (∀ t < R.layer.numTensors, R.Wanted weights (t, x)
        (copyAll R.layer.numTensors s.tempBuffers p.buffer2weightCopyInfos s.weights (t, x))) ∨
          e ∈ p.missingLogicalExpertsInfo := by
    intro y hy hcopy hlacks
    obtain ⟨a, ha⟩ := hlacks.exists_chosenSrcRank
    by_cases hact : R.isActive a
    · refine .inl fun t ht => ?_
      rw [hcopied y t ht hcopy]
      have hwanted := hs.wanted_firstSlot hr (fun k hk => hstage ▸ hk) hy ha hact ht
      intro e' he' z hz
      obtain rfl := some.inj (hxe.symm.trans he')
      exact hwanted e hy.2.1 z hz
    · rcases Nat.eq_zero_or_pos R.layer.numTensors with hT | hT
      · exact .inl fun t ht => absurd ht (hT ▸ Nat.not_lt_zero t)
      · exact .inr ((hp.missing e).mpr ⟨hT, a, ha, by simpa using hact⟩)
  cases case with
  | unchanged =>
    refine .inl fun t ht => ?_
    rcases copyAll_cases s.tempBuffers p.buffer2weightCopyInfos s.weights (t, x) with
      ⟨heq, -⟩ | ⟨y, hy, -⟩
    · rw [heq, (hs.at hstage).kept (by rintro ⟨⟩) x hx]
      exact hw.wanted hspec hxe
    · exact absurd ((hcopies y).mp hy) (by simp [RecvCase.buffer2weightCopy])
  | sameGpu y =>
    refine .inl fun t ht => ?_
    rw [hcopied x t ht rfl]
    exact (hs.at hstage).copied p hplan (by rintro ⟨⟩) y x ((hp.sameGpu y x).mpr ⟨hx, hcase⟩) t ht
  | freeRider y => exact hreceive y hspec.2.2 rfl hspec.1
  | recv a => exact hreceive x hspec.1 rfl (held_of_chosenSrcRank hspec.2).2

theorem Inv.finish (hw : R.ReplicasAgree weights) (hs : R.Inv weights s)
    (h : R.step s (.finish rank) = some s') : R.Inv weights s' := by
  obtain ⟨p, hplan, hstage, rfl⟩ := step_finish h
  have hok := hs.at hstage
  have hr := hok.participates nofun
  have hp := planned_of_plan hr.1 hplan
  -- the slots of the other ranks are not written
  have hothers : ∀ q, q ≠ rank → ∀ x ∈ R.slots q, ∀ t,
      copyAll R.layer.numTensors s.tempBuffers p.buffer2weightCopyInfos s.weights (t, x) =
        s.weights (t, x) := by
    intro q hne x hx t
    rcases copyAll_cases s.tempBuffers p.buffer2weightCopyInfos s.weights (t, x) with
      ⟨heq, -⟩ | ⟨y, hy, -⟩
    · exact heq
    · exact absurd (local_unique hx ((hp.toWeights y x).mp hy).1) hne
  refine hs.stage hothers
    { participates := fun _ => hr
      passed := hok.passed
      kept := fun h => absurd rfl h
      copied := fun p hp _ => hok.copied p hp nofun
      placed := fun p₁ hplan₁ _ x hx e he => ?_ }
  obtain rfl := some.inj (hplan.symm.trans hplan₁)
  exact hs.wanted_copyAll hw hr hplan hp hstage hx he

/-! ### No rank waits for ever -/

section Progress

variable (hs : R.Inv weights s) (hstuck : ∀ step, R.step s step = none)

include hstuck in
theorem stage_of_stuck (hs : R.Inv weights s) (hr : R.Participates rank) :
    (∃ k, s.stage rank = .posted k) ∨ s.stage rank = .finished := by
  cases hstage : s.stage rank with
  | fresh =>
    obtain ⟨p, hplan, -⟩ := exists_planned hr.1
    exact absurd (hstuck (.start rank)) (by simp [step, hplan, hr, hstage])
  | ready k =>
    obtain ⟨p, hplan, -⟩ := exists_planned hr.1
    rcases ((hs.at hstage).ready_le k rfl).lt_or_eq with hlt | rfl
    · exact absurd (hstuck (.post rank)) (by simp [step, hstage, hlt])
    · exact absurd (hstuck (.finish rank)) (by simp [step, hstage, hplan])
  | posted k => exact .inl ⟨k, rfl⟩
  | finished => exact .inr rfl

include hs hstuck in
/-- Between two ranks that are in a batch, or have left it, all has moved. -/
theorem moved_eq_of_stuck (ha : R.Participates a) (hb : R.Participates b)
    (hsa : s.stage a = .posted batch ∨ R.Passed batch (s.stage a))
    (hsb : s.stage b = .posted batch ∨ R.Passed batch (s.stage b)) :
    s.moved a b batch = (R.sends a b batch).length ∧
      s.moved a b batch = (R.recvs b a batch).length := by
  have hlen := (forall₂_sends_recvs ha hb batch).length_eq
  rcases hsa with hsa | hsa
  · rcases hsb with hsb | hsb
    · by_contra hne
      have hle := hs.moved_le a b batch
      have hlt : s.moved a b batch < (R.sends a b batch).length := by omega
      have hlt' : s.moved a b batch < (R.recvs b a batch).length := by omega
      refine absurd (hstuck (.move a b)) ?_
      simp [step, hsa, hsb, getElem?_eq_getElem hlt, getElem?_eq_getElem hlt']
    · have hmoved := ((hs.rank b).passed batch hsb a).2
      exact ⟨hmoved.trans hlen.symm, hmoved⟩
  · have hmoved := ((hs.rank a).passed batch hsa b).1
    exact ⟨hmoved, hmoved.trans hlen⟩

include hs hstuck in
/-- No rank is left in a batch: by induction on the batch, as those in lower ones are excluded. -/
theorem not_posted_of_stuck (batch : Nat) :
    ∀ rank, R.Participates rank → s.stage rank ≠ .posted batch := by
  induction batch using Nat.strong_induction_on with
  | _ batch ih =>
    intro rank hr hstage
    have hreached : ∀ q, R.Participates q →
        s.stage q = .posted batch ∨ R.Passed batch (s.stage q) := by
      intro q hq
      rcases stage_of_stuck hstuck hs hq with ⟨k, hk⟩ | hfin
      · rcases Nat.lt_trichotomy k batch with hlt | rfl | hgt
        · exact absurd hk (ih k hlt q hq)
        · exact .inl hk
        · exact .inr (hk ▸ hgt)
      · exact .inr (hfin ▸ (hs.at hstage).posted_lt batch rfl)
    refine absurd (hstuck (.wait rank)) ?_
    have hall : (R.ops rank batch).all (R.opDone s rank batch) := by
      refine all_eq_true.mpr fun op hop => ?_
      by_cases hsend : op.isend
      · have hmem : op ∈ R.sends rank op.peer batch :=
          mem_filter.mpr ⟨hop, decide_eq_true ⟨hsend, rfl⟩⟩
        obtain ⟨-, hact, e, -, hc⟩ := mem_sends hr.1 hmem
        have hpeer : R.Participates op.peer := ⟨(held_of_chosenSrcRank hc).2.lt_worldSize, hact⟩
        have hmoved := moved_eq_of_stuck hs hstuck hr hpeer (.inl hstage) (hreached _ hpeer)
        simpa [opDone, hsend] using hmoved.1
      · have hmem : op ∈ R.recvs rank op.peer batch :=
          mem_filter.mpr ⟨hop, decide_eq_true ⟨by simpa using hsend, rfl⟩⟩
        obtain ⟨hact, e, -, hc⟩ := mem_recvs hr.1 hmem
        have hpeer : R.Participates op.peer := ⟨(held_of_chosenSrcRank hc).1.lt_worldSize, hact⟩
        have hmoved := moved_eq_of_stuck hs hstuck hpeer hr (hreached _ hpeer) (.inl hstage)
        simpa [opDone, hsend] using hmoved.2
    simp [step, hstage, hall]

include hs hstuck in
/-- Where no step is possible every rank has finished. -/
theorem finished_of_stuck (hr : R.Participates rank) : s.stage rank = .finished := by
  rcases stage_of_stuck hstuck hs hr with ⟨k, hk⟩ | hfin
  · exact absurd hk (not_posted_of_stuck hs hstuck k rank hr)
  · exact hfin

end Progress

/-! Every step counts. -/

theorem sum_eq_add_one {ι : Type*} [DecidableEq ι] {S : Finset ι} {f g : ι → Nat} {i : ι}
    (hi : i ∈ S) (hat : g i = f i + 1) (hother : ∀ j, j ≠ i → g j = f j) :
    ∑ j ∈ S, g j = ∑ j ∈ S, f j + 1 := by
  have hg : ∀ j ∈ S, g j = f j + if j = i then 1 else 0 := by
    intro j _
    split_ifs with h
    · rw [h, hat]
    · rw [hother j h, Nat.add_zero]
  rw [Finset.sum_congr rfl hg, Finset.sum_add_distrib, Finset.sum_ite_eq' S i, if_pos hi]

section

variable (R : Redistribution)

/-- How far a rank is. -/
def stageIndex : Stage → Nat
  | .fresh => 0
  | .ready k => 2 * k + 1
  | .posted k => 2 * k + 2
  | .finished => 2 * R.numBatches + 2

/-- The pairs of ranks in the batches. -/
def exchanges : Finset (Nat × Nat × Nat) :=
  Finset.range R.worldSize ×ˢ Finset.range R.worldSize ×ˢ Finset.range R.numBatches

def progress (s : System W) : Nat :=
  ∑ r ∈ Finset.range R.worldSize, R.stageIndex (s.stage r) +
    ∑ q ∈ R.exchanges, s.moved q.1 q.2.1 q.2.2

/-- As many steps as the ranks can take together. -/
def maxSteps : Nat :=
  R.worldSize * (2 * R.numBatches + 2) + ∑ q ∈ R.exchanges, (R.sends q.1 q.2.1 q.2.2).length

end

theorem progress_stage {weights' temp' : Table W} (hr : R.Participates r)
    (hst : R.stageIndex st = R.stageIndex (s.stage r) + 1) :
    R.progress ⟨weights', temp', update s.stage r st, s.moved⟩ = R.progress s + 1 := by
  have hsum : ∑ q ∈ Finset.range R.worldSize, R.stageIndex (update s.stage r st q) =
      ∑ q ∈ Finset.range R.worldSize, R.stageIndex (s.stage q) + 1 := by
    refine sum_eq_add_one (Finset.mem_range.mpr hr.1) ?_ fun q hne => ?_
    · rw [update_self, hst]
    · rw [update_of_ne hne]
  simp only [progress, hsum]
  omega

theorem progress_step {a : Step} (hs : R.Inv weights s) (h : R.step s a = some s') :
    R.progress s' = R.progress s + 1 := by
  cases a with
  | start rank =>
    obtain ⟨p, -, hr, hstage, rfl⟩ := step_start h
    exact progress_stage hr (by rw [hstage]; rfl)
  | post rank =>
    obtain ⟨k, -, hstage, rfl⟩ := step_post h
    exact progress_stage ((hs.at hstage).participates nofun) (by rw [hstage]; rfl)
  | move src dst =>
    obtain ⟨k, send, recv, hsrc, hdst, -, -, rfl⟩ := step_move h
    have hps := (hs.at hsrc).participates nofun
    have hpd := (hs.at hdst).participates nofun
    have hmem : (src, dst, k) ∈ R.exchanges := by
      simp [exchanges, hps.1, hpd.1, (hs.at hsrc).posted_lt k rfl]
    have hsum := sum_eq_add_one (f := fun q => s.moved q.1 q.2.1 q.2.2)
      (g := fun q : Nat × Nat × Nat => if q.1 = src ∧ q.2.1 = dst ∧ q.2.2 = k then
        s.moved q.1 q.2.1 q.2.2 + 1 else s.moved q.1 q.2.1 q.2.2) hmem (by simp) (by
          rintro ⟨a, b, j⟩ hne
          refine if_neg fun heq => hne ?_
          simp only at heq
          rw [heq.1, heq.2.1, heq.2.2])
    simp only [progress, hsum]
    omega
  | wait rank =>
    obtain ⟨k, hstage, -, rfl⟩ := step_wait h
    refine progress_stage ((hs.at hstage).participates nofun) ?_
    rw [hstage, stageIndex, stageIndex]
    omega
  | finish rank =>
    obtain ⟨p, -, hstage, rfl⟩ := step_finish h
    exact progress_stage ((hs.at hstage).participates nofun) (by rw [hstage]; rfl)

theorem Inv.step (hw : R.ReplicasAgree weights) (hs : R.Inv weights s) {a : Step}
    (h : R.step s a = some s') : R.Inv weights s' := by
  cases a with
  | start rank => exact hs.start hw h
  | post rank => exact hs.post h
  | move src dst => exact hs.move hw h
  | wait rank => exact hs.wait h
  | finish rank => exact hs.finish hw h

theorem Inv.progress_le (hs : R.Inv weights s) : R.progress s ≤ R.maxSteps := by
  have hindex : ∀ r, R.stageIndex (s.stage r) ≤ 2 * R.numBatches + 2 := by
    intro r
    cases hstage : s.stage r with
    | fresh => exact Nat.zero_le _
    | ready k =>
      have := (hs.at hstage).ready_le k rfl
      rw [stageIndex]
      omega
    | posted k =>
      have := (hs.at hstage).posted_lt k rfl
      rw [stageIndex]
      omega
    | finished => exact le_rfl
  refine Nat.add_le_add ?_ (Finset.sum_le_sum fun q _ => (hs.moved_le _ _ _).1)
  refine (Finset.sum_le_card_nsmul _ _ _ fun r _ => hindex r).trans ?_
  rw [Finset.card_range]
  exact le_rfl

/-- The invariant holds in every run, and each step of the run counts. -/
theorem Inv.run (hw : R.ReplicasAgree weights) (steps : List Step) :
    ∀ {s s' : System W}, R.Inv weights s → R.run s steps = some s' →
      R.Inv weights s' ∧ R.progress s' = R.progress s + steps.length := by
  induction steps with
  | nil =>
    intro s s' hs h
    obtain rfl := some.inj h
    exact ⟨hs, rfl⟩
  | cons a steps ih =>
    intro s s' hs h
    obtain ⟨s₁, h₁, h⟩ := bind_eq_some_iff.mp h
    obtain ⟨hinv, hprogress⟩ := ih (hs.step hw h₁) h
    refine ⟨hinv, ?_⟩
    rw [hprogress, progress_step hs h₁, length_cons]
    omega

/-! ### The redistribution -/

/-- An expert is missing only where a rank is not active. -/
theorem missing_eq_nil (hr : rank < R.worldSize) (hplan : R.plan rank = some p)
    (hall : ∀ r < R.worldSize, R.isActive r) : p.missingLogicalExpertsInfo = [] := by
  have hp := planned_of_plan hr hplan
  refine eq_nil_iff_forall_not_mem.mpr fun e he => ?_
  obtain ⟨-, a, ha, hact⟩ := (hp.missing e).mp he
  rw [hall a (held_of_chosenSrcRank ha).1.lt_worldSize] at hact
  exact absurd hact (by simp)

/-- Between two active ranks the operations of every batch fit together.  Every run of the ranks
comes to an end, and where it ends all active ranks have finished.  A rank that has finished holds in
every slot the weights of the expert that the new map gives it, or has the expert in its list of
missing ones, which is empty if all ranks are active. -/
theorem redistribution_delivers (R : Redistribution) (weights tempBuffers : Table W)
    (hreplicas : R.ReplicasAgree weights) :
    (∀ a b, R.Participates a → R.Participates b → ∀ batch,
      List.Forall₂ (Matches R.layer) (R.sends a b batch) (R.recvs b a batch)) ∧
    (∀ steps s, R.run (initial weights tempBuffers) steps = some s →
      steps.length ≤ R.maxSteps ∧
      ((∀ step, R.step s step = none) →
        ∀ rank, R.Participates rank → s.stage rank = .finished) ∧
      ∀ rank, s.stage rank = .finished → ∃ plan, R.plan rank = some plan ∧
        ∀ x ∈ R.layer.localExpertLocations rank,
          ∃ e, R.layer.newPhysicalToLogicalMap[x]? = some e ∧
            ((∀ t < R.layer.numTensors, ∀ y, R.layer.oldPhysicalToLogicalMap[y]? = some e →
              s.weights (t, x) = weights (t, y)) ∨ e ∈ plan.missingLogicalExpertsInfo)) ∧
    ((∀ r < R.worldSize, R.isActive r = true) → ∀ rank < R.worldSize,
      ∃ plan, R.plan rank = some plan ∧ plan.missingLogicalExpertsInfo = []) := by
  refine ⟨fun a b => forall₂_sends_recvs, fun steps s hrun => ?_, fun hall rank hr => ?_⟩
  · obtain ⟨hinv, hprogress⟩ := Inv.run hreplicas steps (Inv.initial R weights tempBuffers) hrun
    refine ⟨?_, fun hstuck rank => finished_of_stuck hinv hstuck, fun rank hfin => ?_⟩
    · have hle := hinv.progress_le
      omega
    have hr := (hinv.at hfin).participates nofun
    obtain ⟨plan, hplan, -⟩ := exists_planned hr.1
    refine ⟨plan, hplan, fun x hx => ?_⟩
    obtain ⟨e, he, -⟩ := exists_new_of_local hr.1 hx
    refine ⟨e, he, ((hinv.at hfin).placed plan hplan rfl x hx e he).imp_left ?_⟩
    exact fun hwanted t ht y hy => hwanted t ht e he y hy
  · obtain ⟨plan, hplan, -⟩ := exists_planned hr
    exact ⟨plan, hplan, missing_eq_nil hr hplan hall⟩

/-- Two ranks with two slots each, of which the first exchange their experts. -/
def swap : Redistribution where
  layer := ⟨[0, 1, 2, 1], [2, 1, 0, 1], 2, 1, 1⟩
  worldSize := 2
  isActive _ := true
  batchChunkSize := 2
  old_length := rfl
  new_length := rfl
  old_lt := by decide
  new_mem_old := by decide
  numGpuPerNode_pos := by decide
  batchChunkSize_pos := by decide

def swapSteps : List Step :=
  [.start 0, .start 1, .post 1, .post 0, .move 0 1, .wait 0, .wait 1, .post 0, .post 1, .move 1 0,
    .wait 1, .finish 1, .wait 0, .finish 0]

/-- The weight of a slot is the expert in it. -/
def swapWeights : Table Nat := fun p => ([0, 1, 2, 1] : List Nat).getD p.2 0

/-- The exchange of two experts. -/
theorem redistribution_delivers_swap : swap.ReplicasAgree swapWeights ∧
    (∃ s, swap.run (initial swapWeights swapWeights) swapSteps = some s ∧
      s.stage 0 = .finished ∧ s.weights (0, 0) = swapWeights (0, 2)) ∧
    ∀ rank < swap.worldSize, ∃ plan, swap.plan rank = some plan ∧
      plan.missingLogicalExpertsInfo = [] := by
  have hagree : swap.ReplicasAgree swapWeights := by
    intro x y e hx hy t
    exact congrArg (Option.getD · 0) (hx.trans hy.symm)
  obtain ⟨-, hruns, hmissing⟩ := redistribution_delivers swap swapWeights swapWeights hagree
  have hnone := hmissing fun _ _ => rfl
  refine ⟨hagree, ?_, hnone⟩
  have hrun : ((swap.run (initial swapWeights swapWeights) swapSteps).any fun s =>
      decide (s.stage 0 = .finished)) = true := by
    decide +kernel
  obtain ⟨s, hs, hfin⟩ := (any_eq_true _ _).mp hrun
  have hstage := of_decide_eq_true hfin
  obtain ⟨plan, hplan, hslots⟩ := (hruns swapSteps s hs).2.2 0 hstage
  obtain ⟨e, he, hweights⟩ := hslots 0 (by decide)
  obtain rfl : 2 = e := some.inj he
  rcases hweights with hweights | hin
  · exact ⟨s, hs, hstage, hweights 0 (by decide) 2 rfl⟩
  · obtain ⟨plan', hplan', hnil⟩ := hnone 0 (by decide)
    obtain rfl := some.inj (hplan.symm.trans hplan')
    exact absurd (hnil ▸ hin) not_mem_nil

end Redistribution

end SglangRuntime.Eplb
