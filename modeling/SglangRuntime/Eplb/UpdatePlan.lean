import SglangRuntime.Eplb.ExpertUpdate
import Mathlib.Data.List.Sort
import Mathlib.Data.List.Nodup
import Mathlib.Data.List.Forall2
import Mathlib.Data.List.Induction

/-!
# Expert parallelism — the plans of the ranks agree

Every rank computes its own plan from the maps.  What the plans have in common is said without them:
a rank *holds* an expert by the old map, it *lacks* one that the new map gives it and that it does
not hold, and each expert that a rank lacks has one source (`chosenSrcRank`).  A rank sends an expert
to those that lack it and have it as their source (`exists_dstRanks`); that this is what the
receivers expect rests on the two chunk computations being inverse to each other.

`Planned` is what one plan does, in these words.
-/

namespace SglangRuntime.Eplb

open Foundation List List

/-! ### Lists -/

theorem deduplicateOrdered_append (arr : List Nat) (x : Nat) : deduplicateOrdered (arr ++ [x]) =
      if (deduplicateOrdered arr).getLast? = some x then deduplicateOrdered arr
      else deduplicateOrdered arr ++ [x] := by
  rw [deduplicateOrdered, foldl_append]
  rfl

@[simp] theorem mem_deduplicateOrdered (arr : List Nat) (a : Nat) :
    a ∈ deduplicateOrdered arr ↔ a ∈ arr := by
  induction arr using reverseRecOn with
  | nil => rfl
  | append_singleton arr x ih =>
    rw [deduplicateOrdered_append]
    split_ifs with hlast
    · have hmem : x ∈ deduplicateOrdered arr := mem_of_getLast? hlast
      grind
    · simp [ih]

theorem le_getLast_of_pairwise_lt {l : List Nat} (hl : l.Pairwise (· < ·)) {z : Nat}
    (hz : l.getLast? = some z) : ∀ a ∈ l, a ≤ z := by
  intro a ha
  obtain ⟨l', rfl⟩ := getLast?_eq_some_iff.mp hz
  rcases mem_append.mp ha with h | h
  · exact ((pairwise_append.mp hl).2.2 a h z (mem_singleton_self z)).le
  · exact (mem_singleton.mp h).le

variable {arr : List Nat}

theorem pairwise_deduplicateOrdered (h : arr.Pairwise (· ≤ ·)) :
    (deduplicateOrdered arr).Pairwise (· < ·) := by
  induction arr using reverseRecOn with
  | nil => exact List.Pairwise.nil
  | append_singleton arr x ih =>
    obtain ⟨harr, -, hx⟩ := pairwise_append.mp h
    rw [deduplicateOrdered_append]
    split_ifs with hlast
    · exact ih harr
    refine pairwise_append.mpr ⟨ih harr, pairwise_singleton _ _, fun a ha b hb => ?_⟩
    obtain rfl := mem_singleton.mp hb
    have hle : ∀ a ∈ deduplicateOrdered arr, a ≤ b := fun a ha =>
      hx a ((mem_deduplicateOrdered arr a).mp ha) b hb
    refine lt_of_le_of_ne (hle a ha) ?_
    rintro rfl
    obtain ⟨z, hz⟩ := Option.isSome_iff_exists.mp
      (getLast?_isSome.mpr (ne_nil_of_mem ha))
    have haz := le_getLast_of_pairwise_lt (ih harr) hz a ha
    exact hlast (hz.trans (congrArg some (le_antisymm (hle z (mem_of_getLast? hz)) haz)))

theorem nodup_deduplicateOrdered (h : arr.Pairwise (· ≤ ·)) : (deduplicateOrdered arr).Nodup :=
  (pairwise_deduplicateOrdered h).imp ne_of_lt

/-- The ranks of slots in order are in order. -/
theorem pairwise_ranks (n d : Nat) (p : Nat → Bool) :
    (((range n).filter p).map (· / d)).Pairwise (· ≤ ·) := by
  refine List.Pairwise.map _ (fun a b h => ?_) (pairwise_lt_range.filter p)
  exact Nat.div_le_div_right h.le

/-! ### The chunks -/

namespace ChunkUtils

variable {u : ChunkUtils} {v c : Nat}

theorem idxOf?_getElem {l : List Nat} (hl : l.Nodup) {i : Nat} {a : Nat} (h : l[i]? = some a) :
    l.idxOf? a = some i := by
  obtain ⟨hi, rfl⟩ := List.getElem?_eq_some_iff.mp h
  rw [idxOf?_eq_some_iff]
  exact ⟨hi, rfl, fun j hj hji => absurd ((List.Nodup.getElem_inj_iff hl).mp hji) (by omega)⟩

theorem chunkValueFromElementValue_getElem (he : u.elementValues.Nodup) {j : Nat}
    (hj : u.elementValues[j]? = some v) :
    u.chunkValueFromElementValue v =
      u.chunkValues[chunkIndex u.elementValues.length u.chunkValues.length j]? := by
  rw [chunkValueFromElementValue, idxOf?_getElem he hj]
  rfl

theorem mem_of_chunkValueFromElementValue
    (h : u.chunkValueFromElementValue v = some c) : v ∈ u.elementValues ∧ c ∈ u.chunkValues := by
  obtain ⟨i, hi, hc⟩ := Option.bind_eq_some_iff.mp h
  refine ⟨?_, mem_of_getElem? hc⟩
  obtain ⟨hlt, rfl, -⟩ := idxOf?_eq_some_iff.mp hi
  exact getElem_mem _

theorem exists_chunkValue (he : u.elementValues.Nodup) (hne : u.chunkValues ≠ [])
    (hv : v ∈ u.elementValues) : ∃ c, u.chunkValueFromElementValue v = some c := by
  obtain ⟨j, hj⟩ := List.mem_iff_getElem?.mp hv
  have hlt := (List.getElem?_eq_some_iff.mp hj).1
  rw [chunkValueFromElementValue_getElem he hj]
  exact ⟨_, List.getElem?_eq_getElem (chunkIndex_lt (List.length_pos_iff.mpr hne) hlt)⟩

/-- The elements of a chunk are those that belong to the chunk. -/
theorem exists_elementValues (he : u.elementValues.Nodup) (hc : u.chunkValues.Nodup)
    (hmem : c ∈ u.chunkValues) :
    ∃ l, u.elementValuesFromChunkValue c = some l ∧ l.Nodup ∧
      ∀ v, v ∈ l ↔ u.chunkValueFromElementValue v = some c := by
  rw [elementValuesFromChunkValue]
  split_ifs with hnil
  · refine ⟨[], rfl, nodup_nil, fun v => iff_of_false (fun hv => (nomatch hv)) fun hv => ?_⟩
    exact absurd (hnil ▸ (mem_of_chunkValueFromElementValue hv).1) not_mem_nil
  obtain ⟨i, hi⟩ := mem_iff_getElem?.mp hmem
  rw [idxOf?_getElem hc hi]
  refine ⟨_, rfl, (he.sublist (drop_sublist _ _)).sublist (take_sublist _ _), fun v => ?_⟩
  simp only [elementSliceFromChunkIndex, Nat.add_sub_cancel_left]
  -- both sides are about the index of the element
  constructor
  · intro hv
    obtain ⟨j, hj⟩ := mem_iff_getElem?.mp hv
    rw [getElem?_take] at hj
    split_ifs at hj with hlt
    rw [getElem?_drop] at hj
    have hbound := (List.getElem?_eq_some_iff.mp hj).1
    rw [chunkValueFromElementValue_getElem he hj, 
      (chunkIndex_eq_iff (c := i) hbound).mpr ⟨by omega, by omega⟩]
    exact hi
  · intro hv
    obtain ⟨j, hj⟩ := mem_iff_getElem?.mp (mem_of_chunkValueFromElementValue hv).1
    have hbound := (List.getElem?_eq_some_iff.mp hj).1
    rw [chunkValueFromElementValue_getElem he hj] at hv
    obtain ⟨hx, hvx⟩ := List.getElem?_eq_some_iff.mp hv
    obtain ⟨hy, hvy⟩ := List.getElem?_eq_some_iff.mp hi
    have hidx := (List.Nodup.getElem_inj_iff hc).mp (hvx.trans hvy.symm)
    obtain ⟨hle, hlt⟩ := (chunkIndex_eq_iff hbound).mp hidx
    refine mem_iff_getElem?.mpr
      ⟨j - chunkStart u.elementValues.length u.chunkValues.length i, ?_⟩
    rw [getElem?_take, if_pos (by omega), getElem?_drop, Nat.add_sub_cancel' hle]
    exact hj

end ChunkUtils

/-! ### Who sends to whom -/

namespace Redistribution

variable (R : Redistribution)

/-! The parts of the layer by short names. -/

abbrev old : List Nat := R.layer.oldPhysicalToLogicalMap

abbrev new : List Nat := R.layer.newPhysicalToLogicalMap

abbrev slots : Nat → List Nat := R.layer.localExpertLocations

abbrev source : Nat → Nat → Option Nat := R.layer.chosenSrcRank

/-- The map gives the expert to a slot of the rank. -/
def Assigned (map : List Nat) (rank e : Nat) : Prop :=
  ∃ x ∈ R.slots rank, map[x]? = some e

/-- The rank has the expert before the update. -/
def Held (rank e : Nat) : Prop := R.Assigned R.old rank e

/-- The rank is given the expert and does not have it. -/
def Lacks (rank e : Nat) : Prop :=
  R.Assigned R.new rank e ∧ ¬ R.Held rank e

variable {R} {rank x e a b : Nat} {map : List Nat}

theorem mem_localExpertLocations : x ∈ R.slots rank ↔
      rank * R.layer.numLocalPhysicalExperts ≤ x ∧
        x < rank * R.layer.numLocalPhysicalExperts + R.layer.numLocalPhysicalExperts := by
  rw [slots, Layer.localExpertLocations, mem_range'_1]

theorem div_eq_iff_mem_local (hx : x < R.worldSize * R.layer.numLocalPhysicalExperts) :
    x / R.layer.numLocalPhysicalExperts = rank ↔ x ∈ R.slots rank := by
  have hpos : 0 < R.layer.numLocalPhysicalExperts := by
    rcases Nat.eq_zero_or_pos R.layer.numLocalPhysicalExperts with h | h
    · rw [h, Nat.mul_zero] at hx
      omega
    · exact h
  rw [mem_localExpertLocations, div_eq_iff_between hpos, Nat.succ_mul]

theorem assigned_iff (hmap : map.length = R.worldSize * R.layer.numLocalPhysicalExperts) :
    R.Assigned map rank e ↔
      ∃ x < R.layer.numPhysicalExperts, map[x]? = some e ∧
        x / R.layer.numLocalPhysicalExperts = rank := by
  have hN : R.layer.numPhysicalExperts = R.worldSize * R.layer.numLocalPhysicalExperts :=
    R.old_length
  constructor
  · rintro ⟨x, hx, hxe⟩
    have hlt : x < R.worldSize * R.layer.numLocalPhysicalExperts :=
      hmap ▸ (List.getElem?_eq_some_iff.mp hxe).1
    exact ⟨x, hN ▸ hlt, hxe, (div_eq_iff_mem_local hlt).mpr hx⟩
  · rintro ⟨x, hlt, hxe, hx⟩
    exact ⟨x, (div_eq_iff_mem_local (hN ▸ hlt)).mp hx, hxe⟩

theorem mem_allSrcRanks : a ∈ R.layer.allSrcRanks e ↔ R.Held a e := by
  rw [Held, assigned_iff R.old_length, Layer.allSrcRanks, mem_deduplicateOrdered, mem_map]
  simp [and_assoc]

theorem mem_needCommDstRanks : b ∈ R.layer.needCommDstRanks e ↔ R.Lacks b e := by
  rw [Lacks, assigned_iff R.new_length, ← mem_allSrcRanks, Layer.needCommDstRanks,
    mem_deduplicateOrdered, mem_map]
  constructor
  · rintro ⟨x, hx, rfl⟩
    simp only [mem_filter, mem_range, decide_eq_true_eq] at hx
    exact ⟨⟨x, hx.1, hx.2.1, rfl⟩, hx.2.2⟩
  · rintro ⟨⟨x, hlt, hxe, rfl⟩, hnot⟩
    refine ⟨x, ?_, rfl⟩
    simp only [mem_filter, mem_range, decide_eq_true_eq]
    exact ⟨hlt, hxe, hnot⟩

theorem nodup_allSrcRanks (R : Redistribution) (e : Nat) : (R.layer.allSrcRanks e).Nodup :=
  nodup_deduplicateOrdered (pairwise_ranks _ _ _)

theorem nodup_needCommDstRanks (R : Redistribution) (e : Nat) :
    (R.layer.needCommDstRanks e).Nodup :=
  nodup_deduplicateOrdered (pairwise_ranks _ _ _)

/-- A rank with a slot that a map gives something is one of the ranks. -/
theorem Assigned.lt_worldSize (h : R.Assigned map a e)
    (hmap : map.length = R.worldSize * R.layer.numLocalPhysicalExperts) : a < R.worldSize := by
  obtain ⟨x, hx, hxe⟩ := h
  have hlt := (List.getElem?_eq_some_iff.mp hxe).1
  rw [hmap] at hlt
  exact Nat.lt_of_mul_lt_mul_right ((mem_localExpertLocations.mp hx).1.trans_lt hlt)

theorem Held.lt_worldSize (h : R.Held a e) : a < R.worldSize :=
  Assigned.lt_worldSize h R.old_length

theorem Lacks.lt_worldSize (h : R.Lacks b e) : b < R.worldSize := h.1.lt_worldSize R.new_length

/-- An expert that is lacked is held by another rank. -/
theorem Lacks.exists_held (h : R.Lacks b e) : ∃ a, R.Held a e := by
  obtain ⟨⟨x, -, hxe⟩, -⟩ := h
  obtain ⟨y, hy⟩ := mem_iff_getElem?.mp (R.new_mem_old e (mem_of_getElem? hxe))
  have hlt : y < R.layer.numPhysicalExperts := (List.getElem?_eq_some_iff.mp hy).1
  exact ⟨_, (assigned_iff R.old_length).mpr ⟨y, hlt, hy, rfl⟩⟩

/-! The two mappings of a rank. -/

section Mappings

variable (R) (rank e : Nat)

theorem mem_sameNode_chunkValues :
    a ∈ (R.layer.computeCommInfo rank e).sameNodeMapping.chunkValues ↔
      R.Held a e ∧ a / R.layer.numGpuPerNode = rank / R.layer.numGpuPerNode := by
  simp [Layer.computeCommInfo, mem_allSrcRanks]

theorem mem_needCommSelfNodeDstRanks :
    b ∈ (R.layer.computeCommInfo rank e).needCommSelfNodeDstRanks ↔
      (R.layer.computeCommInfo rank e).sameNodeMapping.chunkValues ≠ [] ∧ R.Lacks b e ∧
        b / R.layer.numGpuPerNode = rank / R.layer.numGpuPerNode := by
  simp only [Layer.computeCommInfo]
  split_ifs with h
  · rw [mem_filter, mem_needCommDstRanks, decide_eq_true_eq]
    exact ⟨fun hb => ⟨h, hb⟩, And.right⟩
  · exact iff_of_false not_mem_nil fun hb => h hb.1

theorem nodup_needCommSelfNodeDstRanks :
    (R.layer.computeCommInfo rank e).needCommSelfNodeDstRanks.Nodup := by
  simp only [Layer.computeCommInfo]
  split_ifs
  · exact (nodup_needCommDstRanks R e).filter _
  · exact nodup_nil

theorem nodup_sameNode_chunkValues :
    (R.layer.computeCommInfo rank e).sameNodeMapping.chunkValues.Nodup :=
  (nodup_allSrcRanks R e).filter _

theorem mem_crossNode_chunkValues :
    a ∈ (R.layer.computeCommInfo rank e).crossNodeMapping.chunkValues ↔ R.Held a e :=
  mem_allSrcRanks

theorem mem_crossNode_elementValues :
    b ∈ (R.layer.computeCommInfo rank e).crossNodeMapping.elementValues ↔
      R.Lacks b e ∧ ∀ a, R.Held a e → a / R.layer.numGpuPerNode ≠ b / R.layer.numGpuPerNode := by
  simp [Layer.computeCommInfo, mem_needCommDstRanks, mem_allSrcRanks]

theorem nodup_crossNode_elementValues :
    (R.layer.computeCommInfo rank e).crossNodeMapping.elementValues.Nodup :=
  (nodup_needCommDstRanks R e).filter _

end Mappings

/-- What a rank computes for an expert depends on its node only. -/
theorem computeCommInfo_congr (h : a / R.layer.numGpuPerNode = b / R.layer.numGpuPerNode) :
    R.layer.computeCommInfo a e = R.layer.computeCommInfo b e := by
  simp only [Layer.computeCommInfo, h]

theorem chosenSrcRank_of_mem
    (h : rank ∈ (R.layer.computeCommInfo rank e).needCommSelfNodeDstRanks) :
    R.source rank e =
      (R.layer.computeCommInfo rank e).sameNodeMapping.chunkValueFromElementValue rank :=
  if_pos h

theorem chosenSrcRank_of_not_mem
    (h : rank ∉ (R.layer.computeCommInfo rank e).needCommSelfNodeDstRanks) :
    R.source rank e =
      (R.layer.computeCommInfo rank e).crossNodeMapping.chunkValueFromElementValue rank :=
  if_neg h

/-- A rank that lacks an expert has a source for it. -/
theorem Lacks.exists_chosenSrcRank (h : R.Lacks rank e) : ∃ a, R.source rank e = some a := by
  by_cases hmem : rank ∈ (R.layer.computeCommInfo rank e).needCommSelfNodeDstRanks
  · rw [chosenSrcRank_of_mem hmem]
    exact ChunkUtils.exists_chunkValue (nodup_needCommSelfNodeDstRanks R rank e)
      ((mem_needCommSelfNodeDstRanks R rank e).mp hmem).1 hmem
  rw [chosenSrcRank_of_not_mem hmem]
  obtain ⟨a₀, ha₀⟩ := h.exists_held
  refine ChunkUtils.exists_chunkValue (nodup_crossNode_elementValues R rank e)
    (ne_nil_of_mem ((mem_crossNode_chunkValues R rank e).mpr ha₀)) ?_
  refine (mem_crossNode_elementValues R rank e).mpr ⟨h, fun a ha hnode => hmem ?_⟩
  refine (mem_needCommSelfNodeDstRanks R rank e).mpr ⟨?_, h, rfl⟩
  exact ne_nil_of_mem ((mem_sameNode_chunkValues R rank e).mpr ⟨ha, hnode⟩)

/-- The source of an expert holds it, and the rank lacks it. -/
theorem held_of_chosenSrcRank (h : R.source rank e = some a) : R.Held a e ∧ R.Lacks rank e := by
  by_cases hmem : rank ∈ (R.layer.computeCommInfo rank e).needCommSelfNodeDstRanks
  · rw [chosenSrcRank_of_mem hmem] at h
    obtain ⟨-, ha⟩ := ChunkUtils.mem_of_chunkValueFromElementValue h
    exact ⟨((mem_sameNode_chunkValues R rank e).mp ha).1,
      ((mem_needCommSelfNodeDstRanks R rank e).mp hmem).2.1⟩
  · rw [chosenSrcRank_of_not_mem hmem] at h
    obtain ⟨hb, ha⟩ := ChunkUtils.mem_of_chunkValueFromElementValue h
    exact ⟨(mem_crossNode_chunkValues R rank e).mp ha,
      ((mem_crossNode_elementValues R rank e).mp hb).1⟩

/-- Within a node, the chunk of a sender is those that have it as their source. -/
theorem chunkValue_sameNode_iff (ha : R.Held a e) :
    (R.layer.computeCommInfo a e).sameNodeMapping.chunkValueFromElementValue b = some a ↔
      R.source b e = some a ∧
        b / R.layer.numGpuPerNode = a / R.layer.numGpuPerNode := by
  constructor
  · intro h
    have hb := (ChunkUtils.mem_of_chunkValueFromElementValue h).1
    have hnode := ((mem_needCommSelfNodeDstRanks R a e).mp hb).2.2
    rw [← computeCommInfo_congr hnode] at h hb
    exact ⟨(chosenSrcRank_of_mem hb).trans h, hnode⟩
  · rintro ⟨h, hnode⟩
    have hlacks := (held_of_chosenSrcRank h).2
    have hne : a ∈ (R.layer.computeCommInfo b e).sameNodeMapping.chunkValues :=
      (mem_sameNode_chunkValues R b e).mpr ⟨ha, hnode.symm⟩
    have hb : b ∈ (R.layer.computeCommInfo b e).needCommSelfNodeDstRanks :=
      (mem_needCommSelfNodeDstRanks R b e).mpr ⟨ne_nil_of_mem hne, hlacks, rfl⟩
    rw [← computeCommInfo_congr hnode, ← chosenSrcRank_of_mem hb]
    exact h

/-- Across nodes, likewise. -/
theorem chunkValue_crossNode_iff (ha : R.Held a e) :
    (R.layer.computeCommInfo a e).crossNodeMapping.chunkValueFromElementValue b = some a ↔
      R.source b e = some a ∧
        b / R.layer.numGpuPerNode ≠ a / R.layer.numGpuPerNode := by
  constructor
  · intro h
    have hb := (ChunkUtils.mem_of_chunkValueFromElementValue h).1
    have hnodes := ((mem_crossNode_elementValues R a e).mp hb).2
    refine ⟨?_, (hnodes a ha).symm⟩
    refine (chosenSrcRank_of_not_mem fun hmem => ?_).trans h
    -- the node of a receiver across nodes holds nothing
    obtain ⟨hne, -⟩ := (mem_needCommSelfNodeDstRanks R b e).mp hmem
    obtain ⟨a', ha'⟩ := exists_mem_of_ne_nil _ hne
    obtain ⟨hheld, hnode⟩ := (mem_sameNode_chunkValues R b e).mp ha'
    exact hnodes a' hheld hnode
  · rintro ⟨h, hnode⟩
    have hb : b ∉ (R.layer.computeCommInfo b e).needCommSelfNodeDstRanks := by
      intro hmem
      rw [chosenSrcRank_of_mem hmem] at h
      have ha' := (ChunkUtils.mem_of_chunkValueFromElementValue h).2
      exact hnode ((mem_sameNode_chunkValues R b e).mp ha').2.symm
    rw [chosenSrcRank_of_not_mem hb] at h
    exact h

/-- A rank sends an expert that it holds to those that have it as their source. -/
theorem exists_dstRanks (ha : R.Held a e) (src : Nat) :
    ∃ dsts : List Nat, R.layer.createIsendOpsOfLogicalExpertId a e src =
        some (R.layer.isendOps src dsts) ∧ dsts.Nodup ∧
      ∀ b, b ∈ dsts ↔ R.source b e = some a := by
  obtain ⟨same, hsame, hsnodup, hsmem⟩ := ChunkUtils.exists_elementValues
    (nodup_needCommSelfNodeDstRanks R a e) (nodup_sameNode_chunkValues R a e)
    ((mem_sameNode_chunkValues R a e).mpr ⟨ha, rfl⟩)
  obtain ⟨cross, hcross, hcnodup, hcmem⟩ := ChunkUtils.exists_elementValues
    (nodup_crossNode_elementValues R a e) (nodup_allSrcRanks R e)
    ((mem_crossNode_chunkValues R a e).mpr ha)
  refine ⟨same ++ cross, ?_, nodup_append.mpr ⟨hsnodup, hcnodup, ?_⟩, fun b => ?_⟩
  · rw [Layer.createIsendOpsOfLogicalExpertId]
    simp only [hsame, hcross, Option.bind_some, Option.map_some]
  · rintro b hb c hc rfl
    exact ((chunkValue_crossNode_iff ha).mp ((hcmem b).mp hc)).2
      ((chunkValue_sameNode_iff ha).mp ((hsmem b).mp hb)).2
  · rw [mem_append, hsmem, hcmem, chunkValue_sameNode_iff ha, chunkValue_crossNode_iff ha,
      ← and_or_left]
    exact and_iff_left (em _)

/-! ### The slots of a rank -/

/-- The slot is the first of the rank that is given the expert. -/
def FirstSlot (R : Redistribution) (rank e y : Nat) : Prop :=
  y ∈ R.slots rank ∧ R.new[y]? = some e ∧
    ∀ z ∈ R.slots rank, z < y → R.new[z]? ≠ some e

theorem FirstSlot.unique {y : Nat} (hx : R.FirstSlot rank e x) (hy : R.FirstSlot rank e y) :
    x = y := by
  rcases Nat.lt_trichotomy x y with h | h | h
  · exact absurd hx.2.1 (hy.2.2 x hx.1 h)
  · exact h
  · exact absurd hy.2.1 (hx.2.2 y hy.1 h)

theorem Lacks.exists_firstSlot (h : R.Lacks rank e) : ∃ x, R.FirstSlot rank e x := by
  obtain ⟨h, -⟩ := h
  refine ⟨Nat.find h, (Nat.find_spec h).1, (Nat.find_spec h).2, fun z hz hlt hze => ?_⟩
  exact Nat.find_min h hlt ⟨hz, hze⟩

/-- What the case of a slot says. -/
def CaseOf (R : Redistribution) (rank x e : Nat) : RecvCase → Prop
  | .unchanged => R.old[x]? = some e
  | .sameGpu y =>
    y ∈ R.slots rank ∧ R.old[y]? = some e
  | .freeRider y => R.Lacks rank e ∧ y < x ∧ R.FirstSlot rank e y
  | .recv a => R.FirstSlot rank e x ∧ R.source rank e = some a

theorem exists_recvCase (hx : x ∈ R.slots rank) (hxe : R.new[x]? = some e) :
    ∃ case, R.layer.handleRecvOfDstExpertLocation rank x = some case ∧ R.CaseOf rank x e case := by
  simp only [Layer.handleRecvOfDstExpertLocation, hxe]
  by_cases hold : R.old[x]? = some e
  · exact ⟨_, if_pos hold, hold⟩
  rw [if_neg hold]
  cases hgpu : (R.slots rank).find? fun y =>
      decide (R.old[y]? = some e) with
  | some y =>
    exact ⟨_, rfl, mem_of_find?_eq_some hgpu, by simpa using find?_some hgpu⟩
  | none =>
    have hnot : ¬ R.Held rank e := by
      rintro ⟨y, hy, hye⟩
      exact find?_eq_none.mp hgpu y hy (decide_eq_true hye)
    have hlacks : R.Lacks rank e := ⟨⟨x, hx, hxe⟩, hnot⟩
    obtain ⟨hle, hlt⟩ := mem_localExpertLocations.mp hx
    -- the slots of the rank before this one
    have hbefore : ∀ z, z ∈ range' (rank * R.layer.numLocalPhysicalExperts)
        (x - rank * R.layer.numLocalPhysicalExperts) ↔
          z ∈ R.slots rank ∧ z < x := by
      intro z
      rw [mem_range'_1, mem_localExpertLocations]
      omega
    cases hfree : (range' (rank * R.layer.numLocalPhysicalExperts)
        (x - rank * R.layer.numLocalPhysicalExperts)).find? fun y =>
          decide (R.new[y]? = some e) with
    | some y =>
      obtain ⟨hye, as, bs, hsplit, has⟩ := find?_eq_some_iff_append.mp hfree
      obtain ⟨hyl, hyx⟩ := (hbefore y).mp (mem_of_find?_eq_some hfree)
      refine ⟨_, rfl, hlacks, hyx, hyl, of_decide_eq_true hye, fun z hz hzy hze => ?_⟩
      -- what comes before in the range was looked at before
      have hmem : z ∈ as ++ y :: bs := hsplit ▸ (hbefore z).mpr ⟨hz, hzy.trans hyx⟩
      have hsorted : (as ++ y :: bs).Pairwise (· < ·) := hsplit ▸ pairwise_lt_range'
      rcases mem_append.mp hmem with h | h
      · simpa [hze] using has z h
      · rcases mem_cons.mp h with rfl | h
        · exact absurd hzy (lt_irrefl _)
        · have hyz := (pairwise_cons.mp (pairwise_append.mp hsorted).2.1).1 z h
          exact absurd hzy (Nat.lt_asymm hyz)
    | none =>
      obtain ⟨a, ha⟩ := hlacks.exists_chosenSrcRank
      refine ⟨.recv a, by simp only [ha, Option.map_some], ⟨hx, hxe, fun z hz hzx hze => ?_⟩, ha⟩
      exact find?_eq_none.mp hfree z ((hbefore z).mpr ⟨hz, hzx⟩) (decide_eq_true hze)

theorem caseOf_of_handleRecv {case : RecvCase} (hx : x ∈ R.slots rank) (hxe : R.new[x]? = some e)
    (h : R.layer.handleRecvOfDstExpertLocation rank x = some case) : R.CaseOf rank x e case := by
  obtain ⟨case', h', hcase⟩ := exists_recvCase hx hxe
  obtain rfl := Option.some.inj (h.symm.trans h')
  exact hcase

/-- The expert that a rank lacks is received into the first slot for it. -/
theorem handleRecv_of_firstSlot (hx : R.FirstSlot rank e x) (ha : R.source rank e = some a) :
    R.layer.handleRecvOfDstExpertLocation rank x = some (.recv a) := by
  have hnot : ¬ R.Held rank e := (held_of_chosenSrcRank ha).2.2
  obtain ⟨case, h, hcase⟩ := exists_recvCase hx.1 hx.2.1
  rw [h]
  cases case with
  | unchanged => exact absurd ⟨x, hx.1, hcase⟩ hnot
  | sameGpu y => exact absurd ⟨y, hcase.1, hcase.2⟩ hnot
  | freeRider y => exact absurd hcase.2.2.2.1 (hx.2.2 y hcase.2.2.1 hcase.2.1)
  | recv a' => rw [Option.some.inj (ha.symm.trans hcase.2)]

theorem exists_new_of_local (hrank : rank < R.worldSize) (hx : x ∈ R.slots rank) :
    ∃ e, R.new[x]? = some e ∧
      ∃ e', R.old[x]? = some e' := by
  have hle : (rank + 1) * R.layer.numLocalPhysicalExperts ≤
      R.worldSize * R.layer.numLocalPhysicalExperts := Nat.mul_le_mul_right _ hrank
  rw [Nat.succ_mul] at hle
  have hlt := (mem_localExpertLocations.mp hx).2.trans_le hle
  exact ⟨_, getElem?_eq_getElem (R.new_length ▸ hlt), _,
    getElem?_eq_getElem (R.old_length ▸ hlt)⟩

/-! ### The plan of a rank -/

theorem exists_mapM_eq_some {α β : Type*} {f : α → Option β} (l : List α)
    (h : ∀ a ∈ l, ∃ b, f a = some b) :
    ∃ r, l.mapM f = some r ∧ ∀ b, b ∈ r ↔ ∃ a ∈ l, f a = some b := by
  induction l with
  | nil => exact ⟨[], rfl, by simp⟩
  | cons a l ih =>
    obtain ⟨b, hb⟩ := h a mem_cons_self
    obtain ⟨r, hr, hmem⟩ := ih fun a' ha' => h a' (mem_cons_of_mem _ ha')
    refine ⟨b :: r, by simp [mapM_cons, hb, hr], fun b' => ?_⟩
    rw [mem_cons, hmem, exists_mem_cons_iff, hb, Option.some.injEq, eq_comm]

theorem exists_handleRecv (hrank : rank < R.worldSize) :
    ∃ cases, R.layer.handleRecv rank = some cases ∧
      ∀ x case, (x, case) ∈ cases ↔ x ∈ R.slots rank ∧
        R.layer.handleRecvOfDstExpertLocation rank x = some case := by
  obtain ⟨cases, hcases, hmem⟩ := exists_mapM_eq_some
    (f := fun dst => (R.layer.handleRecvOfDstExpertLocation rank dst).map (dst, ·))
    (R.slots rank) (fun x hx => by
      obtain ⟨e, hxe, -⟩ := exists_new_of_local hrank hx
      obtain ⟨case, h, -⟩ := exists_recvCase hx hxe
      exact ⟨(x, case), by simp only [h, Option.map_some]⟩)
  refine ⟨cases, hcases, fun x case => ?_⟩
  rw [hmem]
  constructor
  · rintro ⟨y, hy, h⟩
    obtain ⟨case', hcase', heq⟩ := Option.map_eq_some_iff.mp h
    obtain ⟨rfl, rfl⟩ := Prod.mk.inj heq
    exact ⟨hy, hcase'⟩
  · rintro ⟨hx, h⟩
    exact ⟨x, hx, by simp only [h, Option.map_some]⟩

/-- The sends of a rank: one entry for each expert that it holds, from the first slot for it. -/
theorem exists_createIsendOpsFrom (R : Redistribution) (rank : Nat) (srcs : List Nat) :
    ∀ handled : List Nat,
      (∀ x ∈ srcs, ∃ e, R.old[x]? = some e ∧ R.Held rank e) →
      ∃ infos, R.layer.createIsendOpsFrom rank srcs handled = some infos ∧
        ∀ e ops, (e, ops) ∈ infos ↔ e ∉ handled ∧
          ∃ x, (srcs.find? fun x => R.old[x]? = some e) = some x ∧
            R.layer.createIsendOpsOfLogicalExpertId rank e x = some ops := by
  induction srcs with
  | nil => exact fun handled _ => ⟨[], rfl, by simp⟩
  | cons src srcs ih =>
    intro handled hsrcs
    obtain ⟨e₀, he₀, hheld⟩ := hsrcs src mem_cons_self
    have hrest := fun x hx => hsrcs x (mem_cons_of_mem _ hx)
    simp only [Layer.createIsendOpsFrom, he₀]
    -- the first slot for another expert is among the later ones
    have hother : ∀ e, e ≠ e₀ →
        ((src :: srcs).find? fun x => decide (R.old[x]? = some e)) =
          srcs.find? fun x => decide (R.old[x]? = some e) := by
      intro e hne
      refine find?_cons_of_neg ?_
      simpa [he₀] using hne.symm
    split_ifs with hin
    · obtain ⟨infos, hinfos, hmem⟩ := ih handled hrest
      refine ⟨infos, hinfos, fun e ops => (hmem e ops).trans (and_congr_right fun hnot => ?_)⟩
      rw [hother e (fun h => hnot (h ▸ hin))]
    obtain ⟨dsts, hdsts, -⟩ := exists_dstRanks hheld src
    obtain ⟨infos, hinfos, hmem⟩ := ih (e₀ :: handled) hrest
    refine ⟨(e₀, R.layer.isendOps src dsts) :: infos, ?_, fun e ops => ?_⟩
    · rw [hdsts, hinfos]
      rfl
    rw [mem_cons, hmem]
    by_cases heq : e = e₀
    · subst heq
      have hfind : ((src :: srcs).find? fun x =>
          decide (R.old[x]? = some e)) = some src :=
        find?_cons_of_pos (decide_eq_true he₀)
      rw [hfind]
      constructor
      · rintro (h | ⟨h, -⟩)
        · exact ⟨hin, src, rfl, (Prod.mk.inj h).2 ▸ hdsts⟩
        · exact absurd mem_cons_self h
      · rintro ⟨-, x, hx, hops⟩
        obtain rfl := Option.some.inj hx
        exact .inl (Prod.ext rfl (Option.some.inj (hops.symm.trans hdsts)))
    · rw [hother e heq]
      constructor
      · rintro (h | ⟨h, hx⟩)
        · exact absurd (Prod.mk.inj h).1 heq
        · exact ⟨fun h' => h (mem_cons_of_mem _ h'), hx⟩
      · rintro ⟨h, hx⟩
        refine .inr ⟨fun h' => ?_, hx⟩
        rcases mem_cons.mp h' with h' | h'
        · exact heq h'
        · exact h h'

end Redistribution

/-! The filter, on the two kinds of entries. -/

section Filter

variable (layer : Layer) (isActive : Nat → Bool) (e x : Nat) {op : P2POp}

theorem mem_isendOps {dsts : List Nat} :
    op ∈ layer.isendOps x dsts ↔ ∃ b ∈ dsts, ∃ i < layer.numTensors, ⟨true, i, x, b⟩ = op := by
  simp [Layer.isendOps]

theorem mem_irecvOps {a : Nat} :
    op ∈ layer.irecvOps x a ↔ ∃ i < layer.numTensors, ⟨false, i, x, a⟩ = op := by
  simp [Layer.irecvOps]

variable (dsts : List Nat)

theorem filter_isendOps (p : Nat → Bool) :
    ((layer.isendOps x dsts).filter fun op => p op.peer) = layer.isendOps x (dsts.filter p) := by
  induction dsts with
  | nil => rfl
  | cons b dsts ih =>
    simp only [Layer.isendOps, flatMap_cons, filter_append, filter_cons] at ih ⊢
    rw [ih]
    split_ifs with hb
    · rw [flatMap_cons, filter_eq_self.mpr]
      rintro op hop
      obtain ⟨i, -, rfl⟩ := mem_map.mp hop
      exact hb
    · rw [filter_eq_nil_iff.mpr, nil_append]
      rintro op hop
      obtain ⟨i, -, rfl⟩ := mem_map.mp hop
      exact hb

theorem filterInfo_isendOps : filterInfo isActive (e, layer.isendOps x dsts) =
      some ((e, layer.isendOps x (dsts.filter isActive)), []) := by
  have hrecv : ((layer.isendOps x dsts).any fun op => !op.isend) = false := by
    rw [any_eq_false]
    intro op hop
    obtain ⟨b, -, i, -, rfl⟩ := (mem_isendOps layer x).mp hop
    simp
  simp only [filterInfo, hrecv, Bool.and_false, Bool.false_eq_true, if_false, Bool.false_and]
  split_ifs with hsend
  · rw [filter_isendOps]
  -- without an operation there is nothing to take out
  have hnil : layer.isendOps x dsts = [] := by
    refine eq_nil_iff_forall_not_mem.mpr fun op hop => hsend (any_eq_true.mpr ⟨op, hop, ?_⟩)
    obtain ⟨b, -, i, -, rfl⟩ := (mem_isendOps layer x).mp hop
    rfl
  rw [← filter_isendOps, hnil]
  rfl

theorem filterInfo_irecvOps (a : Nat) : filterInfo isActive (e, layer.irecvOps x a) =
      some ((e, if isActive a then layer.irecvOps x a else []),
        if isActive a ∨ layer.numTensors = 0 then [] else [e]) := by
  have hsend : ((layer.irecvOps x a).any fun op => op.isend) = false := by
    rw [any_eq_false]
    intro op hop
    obtain ⟨i, -, rfl⟩ := (mem_irecvOps layer x).mp hop
    simp
  have hmissing : (((layer.irecvOps x a).any fun op => !op.isend) &&
      (layer.irecvOps x a).any fun op => !isActive op.peer) ↔
        ¬ (isActive a ∨ layer.numTensors = 0) := by
    simp only [Bool.and_eq_true, any_eq_true, not_or]
    constructor
    · rintro ⟨-, op, hop, hact⟩
      obtain ⟨i, hi, rfl⟩ := (mem_irecvOps layer x).mp hop
      exact ⟨by simpa using hact, by omega⟩
    · rintro ⟨hact, hpos⟩
      have hop := (mem_irecvOps layer x (a := a)).mpr ⟨0, by omega, rfl⟩
      exact ⟨⟨_, hop, rfl⟩, _, hop, by simpa using hact⟩
  simp only [filterInfo, hsend, Bool.false_and, Bool.false_eq_true, if_false]
  by_cases h : isActive a ∨ layer.numTensors = 0
  · rw [if_neg (fun h' => hmissing.mp h' h), if_pos h]
    rcases h with h | h
    · rw [if_pos h]
    · simp [Layer.irecvOps, h]
  · rw [if_pos (hmissing.mpr h), if_neg h, if_neg fun h' => h (.inl h')]

end Filter

namespace RankPlan

variable {plan : RankPlan} {e : Nat}

theorem opsByExpert_mem (plan : RankPlan) (hex : ∃ ops, (e, ops) ∈ plan.p2pOpInfos) :
    (e, plan.opsByExpert e) ∈ plan.p2pOpInfos := by
  obtain ⟨ops₀, hops₀⟩ := hex
  have hmem : (e, ops₀) ∈ plan.p2pOpInfos.filter fun info => info.1 = e :=
    mem_filter.mpr ⟨hops₀, decide_eq_true rfl⟩
  obtain ⟨⟨e', ops⟩, hlast⟩ := Option.isSome_iff_exists.mp
    (getLast?_isSome.mpr (ne_nil_of_mem hmem))
  obtain ⟨hin, he'⟩ := mem_filter.mp (mem_of_getLast? hlast)
  obtain rfl : e' = e := of_decide_eq_true he'
  rw [opsByExpert, hlast, Option.map_some, Option.getD_some]
  exact hin

theorem opsByExpert_eq_nil (hnone : ∀ ops, (e, ops) ∉ plan.p2pOpInfos) :
    plan.opsByExpert e = [] := by
  have hnil : (plan.p2pOpInfos.filter fun info => decide (info.1 = e)) = [] := by
    refine filter_eq_nil_iff.mpr fun info hinfo he => hnone info.2 ?_
    exact of_decide_eq_true he ▸ hinfo
  rw [opsByExpert, hnil]
  rfl

end RankPlan

namespace Redistribution

variable {R : Redistribution} {rank x e a b : Nat}

/-- What a rank posts for an expert. -/
inductive Posts (R : Redistribution) (rank e : Nat) : List P2POp → Prop
  /-- One that it lacks is received from its source, if that is active. -/
  | recv (x a : Nat) : R.FirstSlot rank e x → R.source rank e = some a →
    Posts R rank e (if R.isActive a then R.layer.irecvOps x a else [])
  /-- One that it holds is sent to the active ranks that have it as their source. -/
  | send (x : Nat) (dsts : List Nat) : x ∈ R.slots rank →
    R.old[x]? = some e → dsts.Nodup →
    (∀ b, b ∈ dsts ↔ R.source b e = some rank ∧ R.isActive b) →
    Posts R rank e (R.layer.isendOps x dsts)
  | nothing : ¬ R.Held rank e → R.source rank e = none → Posts R rank e []

/-- What a rank does. -/
structure Planned (R : Redistribution) (rank : Nat) (p : RankPlan) : Prop where
  posts : ∀ e, R.Posts rank e (p.opsByExpert e)
  /-- An expert is missing if its source is not active. -/
  missing : ∀ e, e ∈ p.missingLogicalExpertsInfo ↔
    0 < R.layer.numTensors ∧ ∃ a, R.source rank e = some a ∧ R.isActive a = false
  sameGpu : ∀ y x, (y, x) ∈ p.sameGpuCopies ↔ x ∈ R.slots rank ∧
    R.layer.handleRecvOfDstExpertLocation rank x = some (.sameGpu y)
  toWeights : ∀ y x, (y, x) ∈ p.buffer2weightCopyInfos ↔ x ∈ R.slots rank ∧
    ∃ case, R.layer.handleRecvOfDstExpertLocation rank x = some case ∧
      case.buffer2weightCopy x = some (y, x)

/-- The entries for receiving, before the filter. -/
theorem mem_recvInfos {cases : List (Nat × RecvCase)} {ops : List P2POp}
    (hcases : ∀ x case, (x, case) ∈ cases ↔ x ∈ R.slots rank ∧
      R.layer.handleRecvOfDstExpertLocation rank x = some case) :
    ((e, ops) ∈ cases.filterMap fun case => R.layer.recvInfo case.1 case.2) ↔
      ∃ x a, R.FirstSlot rank e x ∧ R.source rank e = some a ∧
        R.layer.irecvOps x a = ops := by
  rw [mem_filterMap]
  constructor
  · rintro ⟨⟨x, case⟩, hmem, hinfo⟩
    obtain ⟨hx, hcase⟩ := (hcases x case).mp hmem
    cases case with
    | recv a =>
      obtain ⟨e', he', heq⟩ := Option.map_eq_some_iff.mp hinfo
      obtain ⟨rfl, rfl⟩ := Prod.mk.inj heq
      obtain ⟨hfirst, ha⟩ := caseOf_of_handleRecv hx he' hcase
      exact ⟨x, a, hfirst, ha, rfl⟩
    | unchanged | sameGpu _ | freeRider _ => exact absurd hinfo (by simp [Layer.recvInfo])
  · rintro ⟨x, a, hfirst, ha, rfl⟩
    refine ⟨(x, .recv a), (hcases x _).mpr ⟨hfirst.1, handleRecv_of_firstSlot hfirst ha⟩, ?_⟩
    simp [Layer.recvInfo, hfirst.2.1]

/-- The slot from which the rank sends the expert. -/
abbrev SourceSlot (R : Redistribution) (rank e x : Nat) : Prop :=
  ((R.slots rank).find? fun x =>
    R.old[x]? = some e) = some x

/-- The entries for sending, before the filter. -/
theorem exists_sendInfos (hrank : rank < R.worldSize) :
    ∃ infos, R.layer.createIsendOps rank = some infos ∧
      ∀ e ops, (e, ops) ∈ infos ↔
        ∃ x, R.SourceSlot rank e x ∧
          R.layer.createIsendOpsOfLogicalExpertId rank e x = some ops := by
  obtain ⟨infos, hinfos, hmem⟩ := exists_createIsendOpsFrom R rank
    (R.slots rank) [] (fun x hx => by
      obtain ⟨-, -, e, he⟩ := exists_new_of_local hrank hx
      exact ⟨e, he, x, hx, he⟩)
  exact ⟨infos, hinfos, fun e ops => by simpa using hmem e ops⟩

theorem SourceSlot.held (h : R.SourceSlot rank e x) : x ∈ R.slots rank ∧ R.old[x]? = some e :=
  ⟨mem_of_find?_eq_some h, by simpa using find?_some h⟩

theorem Held.exists_sourceSlot (h : R.Held rank e) : ∃ x, R.SourceSlot rank e x := by
  obtain ⟨y, hy, hye⟩ := h
  exact Option.isSome_iff_exists.mp (find?_isSome.mpr ⟨y, hy, decide_eq_true hye⟩)

/-- What comes of an entry for receiving or sending. -/
structure Filtered (R : Redistribution) (rank : Nat) (out : (Nat × List P2POp) × List Nat) : Prop where
  posts : R.Posts rank out.1.1 out.1.2
  source : R.Held rank out.1.1 ∨ ∃ a, R.source rank out.1.1 = some a
  missing : ∀ e, e ∈ out.2 ↔ e = out.1.1 ∧ 0 < R.layer.numTensors ∧
    ∃ a, R.source rank e = some a ∧ R.isActive a = false

theorem filtered_recv (hx : R.FirstSlot rank e x) (ha : R.source rank e = some a) :
    R.Filtered rank ((e, if R.isActive a then R.layer.irecvOps x a else []),
      if R.isActive a ∨ R.layer.numTensors = 0 then [] else [e]) where
  posts := .recv x a hx ha
  source := .inr ⟨a, ha⟩
  missing e' := by
    constructor
    · intro he
      simp only at he
      split_ifs at he with h
      · cases he
      · obtain rfl := mem_singleton.mp he
        rw [not_or, Bool.not_eq_true] at h
        exact ⟨rfl, Nat.pos_of_ne_zero h.2, a, ha, h.1⟩
    · rintro ⟨rfl, hpos, a', ha', hact⟩
      obtain rfl := Option.some.inj (ha.symm.trans ha')
      simp [hact, hpos.ne']

theorem filtered_send {dsts : List Nat} (hx : R.SourceSlot rank e x) (hdsts : dsts.Nodup)
    (hmem : ∀ b, b ∈ dsts ↔ R.source b e = some rank ∧ R.isActive b) :
    R.Filtered rank ((e, R.layer.isendOps x dsts), []) where
  posts := .send x dsts hx.held.1 hx.held.2 hdsts hmem
  source := .inl ⟨x, hx.held⟩
  missing e' := by
    refine iff_of_false not_mem_nil ?_
    rintro ⟨rfl, -, a, ha, -⟩
    exact (held_of_chosenSrcRank ha).2.2 ⟨x, hx.held⟩

/-- The filter goes through all entries. -/
theorem exists_filterP2pOps {recvInfos sendInfos : List (Nat × List P2POp)}
    (hrecv : ∀ e ops, (e, ops) ∈ recvInfos ↔ ∃ x a, R.FirstSlot rank e x ∧
      R.source rank e = some a ∧ R.layer.irecvOps x a = ops)
    (hsend : ∀ e ops, (e, ops) ∈ sendInfos ↔ ∃ x, R.SourceSlot rank e x ∧
      R.layer.createIsendOpsOfLogicalExpertId rank e x = some ops) :
    ∃ filtered : List ((Nat × List P2POp) × List Nat),
      filterP2pOps R.isActive (recvInfos ++ sendInfos) =
        some (filtered.map Prod.fst, filtered.flatMap Prod.snd) ∧
      (∀ out ∈ filtered, R.Filtered rank out) ∧
      (∀ e, R.Held rank e ∨ (∃ a, R.source rank e = some a) →
        ∃ out ∈ filtered, out.1.1 = e) := by
  have hone : ∀ info ∈ recvInfos ++ sendInfos, ∃ out, filterInfo R.isActive info = some out ∧
      out.1.1 = info.1 ∧ R.Filtered rank out := by
    rintro ⟨e, ops⟩ hinfo
    rcases mem_append.mp hinfo with h | h
    · obtain ⟨x, a, hx, ha, rfl⟩ := (hrecv e ops).mp h
      exact ⟨_, filterInfo_irecvOps R.layer R.isActive e x a, rfl, filtered_recv hx ha⟩
    obtain ⟨x, hx, hops⟩ := (hsend e ops).mp h
    obtain ⟨dsts, hdsts, hnodup, hmem⟩ := exists_dstRanks ⟨x, SourceSlot.held hx⟩ x
    obtain rfl := Option.some.inj (hops.symm.trans hdsts)
    refine ⟨_, filterInfo_isendOps R.layer R.isActive e x dsts, rfl,
      filtered_send hx (hnodup.filter _) fun b => ?_⟩
    rw [mem_filter, hmem]
  obtain ⟨filtered, hfiltered, hmem⟩ := exists_mapM_eq_some (recvInfos ++ sendInfos)
    fun info hinfo => (hone info hinfo).imp fun _ h => h.1
  refine ⟨filtered, by rw [filterP2pOps, hfiltered, Option.map_some], ?_, ?_⟩
  · intro out hout
    obtain ⟨info, hinfo, h⟩ := (hmem out).mp hout
    obtain ⟨out', h', -, hspec⟩ := hone info hinfo
    obtain rfl := Option.some.inj (h.symm.trans h')
    exact hspec
  · intro e he
    have hinfo : ∃ ops, (e, ops) ∈ recvInfos ++ sendInfos := by
      rcases he with hheld | ⟨a, ha⟩
      · obtain ⟨x, hx⟩ := hheld.exists_sourceSlot
        obtain ⟨dsts, hdsts, -⟩ := exists_dstRanks hheld x
        exact ⟨_, mem_append_right _ ((hsend e _).mpr ⟨x, hx, hdsts⟩)⟩
      · obtain ⟨x, hx⟩ := (held_of_chosenSrcRank ha).2.exists_firstSlot
        exact ⟨_, mem_append_left _ ((hrecv e _).mpr ⟨x, a, hx, ha, rfl⟩)⟩
    obtain ⟨ops, hops⟩ := hinfo
    obtain ⟨out, h, hout, -⟩ := hone _ hops
    exact ⟨out, (hmem out).mpr ⟨_, hops, h⟩, hout⟩

/-- A rank has a plan. -/
theorem exists_planned (hrank : rank < R.worldSize) :
    ∃ p, R.plan rank = some p ∧ R.Planned rank p := by
  obtain ⟨cases, hcases, hmem⟩ := exists_handleRecv hrank
  obtain ⟨sendInfos, hsends, hsend⟩ := exists_sendInfos hrank
  obtain ⟨filtered, hfilter, hspec, hex⟩ := exists_filterP2pOps
    (fun _ _ => mem_recvInfos hmem) hsend
  obtain ⟨p, hplan, hinfos, hmissing, hgpu, hweights⟩ : ∃ p, R.plan rank = some p ∧
      p.p2pOpInfos = filtered.map Prod.fst ∧
      p.missingLogicalExpertsInfo = filtered.flatMap Prod.snd ∧
      p.sameGpuCopies = (cases.filterMap fun case => case.2.sameGpuCopy case.1) ∧
      p.buffer2weightCopyInfos = cases.filterMap fun case => case.2.buffer2weightCopy case.1 := by
    refine ⟨⟨_, _, _, _⟩, ?_, rfl, rfl, rfl, rfl⟩
    rw [plan, Layer.rankPlan, hcases, hsends]
    simp only [Option.bind_some, hfilter]
    rfl
  refine ⟨p, hplan, ?_⟩
  constructor
  case posts =>
    intro e
    by_cases he : R.Held rank e ∨ ∃ a, R.source rank e = some a
    · obtain ⟨out, hout, rfl⟩ := hex e he
      have hmem' := RankPlan.opsByExpert_mem p ⟨out.1.2, hinfos ▸ mem_map_of_mem hout⟩
      rw [hinfos] at hmem'
      obtain ⟨⟨info, missing⟩, hout', rfl⟩ := mem_map.mp hmem'
      exact (hspec _ hout').posts
    · obtain ⟨hnot, hnone⟩ := not_or.mp he
      have hops : p.opsByExpert e = [] := by
        refine RankPlan.opsByExpert_eq_nil fun ops hops => he ?_
        rw [hinfos] at hops
        obtain ⟨⟨info, missing⟩, hout, rfl⟩ := mem_map.mp hops
        exact (hspec _ hout).source
      rw [hops]
      exact .nothing hnot (Option.eq_none_iff_forall_ne_some.mpr (not_exists.mp hnone))
  case missing =>
    intro e
    rw [hmissing, mem_flatMap]
    constructor
    · rintro ⟨out, hout, he⟩
      exact ((hspec out hout).missing e |>.mp he).2
    · rintro ⟨hpos, a, ha, hact⟩
      obtain ⟨out, hout, rfl⟩ := hex e (.inr ⟨a, ha⟩)
      exact ⟨out, hout, ((hspec out hout).missing _).mpr ⟨rfl, hpos, a, ha, hact⟩⟩
  case sameGpu =>
    intro y x
    rw [hgpu, mem_filterMap]
    constructor
    · rintro ⟨⟨x', case⟩, hcase, hcopy⟩
      cases case with
      | sameGpu y' =>
        obtain ⟨rfl, rfl⟩ := Prod.mk.inj (Option.some.inj hcopy)
        exact (hmem _ _).mp hcase
      | unchanged | freeRider _ | recv _ => exact absurd hcopy (by simp [RecvCase.sameGpuCopy])
    · intro h
      exact ⟨(x, .sameGpu y), (hmem _ _).mpr h, rfl⟩
  case toWeights =>
    intro y x
    rw [hweights, mem_filterMap]
    constructor
    · rintro ⟨⟨x', case⟩, hcase, hcopy⟩
      obtain rfl : x' = x := by
        cases case <;> simp [RecvCase.buffer2weightCopy] at hcopy <;> exact hcopy.2
      obtain ⟨hx, h⟩ := (hmem _ _).mp hcase
      exact ⟨hx, case, h, hcopy⟩
    · rintro ⟨hx, case, h, hcopy⟩
      exact ⟨(x, case), (hmem _ _).mpr ⟨hx, h⟩, hcopy⟩

end Redistribution

end SglangRuntime.Eplb
