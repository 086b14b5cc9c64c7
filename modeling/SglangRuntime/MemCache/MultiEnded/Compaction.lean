import SglangRuntime.MemCache.MultiEnded.Run
import SglangRuntime.Foundation.Relocation

/-!
# Memory cache — compaction of `MultiEndedAllocator` is invisible

A flush in lazy mode and a free in eager mode move pages.  The pool copies the tokens of the sources
to those of the destinations in one batch, the tables are rewritten, and a virtual page leads to the
same content as before (`compaction_invisible`).

The first part is the eager path of `free`: the pages next to the watermark, as many as are freed,
are vacated, and the pages among them that are not freed move into the freed pages farther in.
-/

namespace SglangRuntime.MultiEnded

open Foundation List MultiEndedAllocator Prod

namespace MultiEndedAllocator

variable (c : AllocConfig)

/-! ### Eager mode -/

/-- The `k` pages of the band next to the watermark, ascending. -/
def vacatedBand (watermark k : Nat) : List Nat :=
  match c.growDirection with
  | .up => List.range' (watermark - k) k
  | .down => List.range' (watermark + 1) k

/-- `_compact_pending_impl`: the allocator, and the moves as pairs of a source and a destination.
`gated` is that a `disagg_move_gate` is installed. -/
def compactPending (gated : Bool) (s : MultiEndedAllocator) (freedPhysicalPages : List Nat) :
    Option (MultiEndedAllocator × List (Nat × Nat)) :=
  if gated then none
  else
    let freedSet := freedPhysicalPages.dedup
    let k := freedSet.length
    if freedSet = [] then some (s, [])
    else if c.allocatedPages s.watermark < k then none
    else if ¬ ∀ h ∈ freedSet, c.InBand s.watermark h then none
    else
      let newWm := c.retreat s.watermark k
      let vacated := vacatedBand c s.watermark k
      let srcs := vacated.filter (· ∉ freedSet)
      let dsts := (freedSet.filter fun h => c.InBand newWm h).insertionSort (· ≤ ·)
      if srcs.length ≠ dsts.length then none
      else
        (gather s.physicalToVirtual srcs).map fun vs =>
          ({ s with
              watermark := newWm
              virtualToPhysical := scatter s.virtualToPhysical vs dsts
              physicalToVirtual := scatter (wipe s.physicalToVirtual vacated) dsts vs },
            srcs.zip dsts)

/-- The eager path of `free`. -/
def freeEager (gated : Bool) (s : MultiEndedAllocator) (freeIndex : List Nat) :
    Option (MultiEndedAllocator × List (Nat × Nat)) :=
  if freeIndex = [] then some (s, [])
  else if s.isNotInFreeGroup then
    let freeVPages := ((freeIndex.map (· / c.pageSize)).dedup).insertionSort (· ≤ ·)
    (gather s.virtualToPhysical freeVPages).bind fun freedPPages =>
      compactPending c gated
        { s with
          virtualToPhysical := wipe s.virtualToPhysical freeVPages
          freeVirtualIds :=
            if c.isIdOwner then s.freeVirtualIds ++ freeVPages else s.freeVirtualIds }
        freedPPages
  else some ({ s with freeGroup := s.freeGroup ++ freeIndex }, [])

/-- The moves of `_flush`. -/
def flushBatch (s : MultiEndedAllocator) (timing : Timing) (urgent : Bool) : List (Nat × Nat) :=
  if !timing.moveGate then []
  else (s.prepareFlush c timing urgent).flushMoves c timing urgent

/-! ### Contents -/

/-- Page ids as token ids. -/
def expandPages (pages : List Nat) : List Nat :=
  if c.pageSize = 1 then pages
  else pages.flatMap fun p => (List.range c.pageSize).map (p * c.pageSize + ·)

/-- The `move_kv_cache` of a batch, on the tokens of the pool. -/
def moveKvCache {α : Type*} (kv : Nat → α) (batch : List (Nat × Nat)) : Nat → α :=
  copyBatch kv (expandPages c (batch.map snd)) (expandPages c (batch.map fst))

end MultiEndedAllocator

open MultiEndedAllocator

/-- `lazy_compaction`. -/
inductive Mode where
  | lazy | eager
deriving DecidableEq, Repr

inductive CompactionOp where
  | free (freeIndex : List Nat)
  | flush (timing : Timing) (urgent : Bool)

/-- An operation that may move pages, with the batch it moves. -/
def CompactionOp.run (c : AllocConfig) (gated : Bool) (s : MultiEndedAllocator) :
    Mode → CompactionOp → Option (MultiEndedAllocator × List (Nat × Nat))
  | .lazy, .free freeIndex => (s.free c freeIndex).map (·, [])
  | .lazy, .flush timing urgent =>
    (s.flush c timing urgent).map (·, s.flushBatch c timing urgent)
  | .eager, .free freeIndex => s.freeEager c gated freeIndex
  | .eager, .flush _ _ => some (s, [])

/-- The virtual pages that an operation frees; a free in a free group waits for its end. -/
def CompactionOp.freed (c : AllocConfig) (s : MultiEndedAllocator) : CompactionOp → List Nat
  | .free freeIndex => if s.isNotInFreeGroup then freeIndex.map (· / c.pageSize) else []
  | .flush _ _ => []

/-- The tables in eager mode: every page of the band is bound. -/
structure EagerInv (c : AllocConfig) (s : MultiEndedAllocator) : Prop where
  classes : Classes c s.watermark s.physicalToVirtual []
  inverse : MutuallyInverse s.virtualToPhysical s.physicalToVirtual

def TableInv (c : AllocConfig) (s : MultiEndedAllocator) : Mode → Prop
  | .lazy => Inv c s
  | .eager => EagerInv c s

/-- Nothing changes but that pages are freed: the ids that stay bound lead to the same content. -/
structure Invisible {α : Type*} (c : AllocConfig) (freed : List Nat) (batch : List (Nat × Nat))
    (s s' : MultiEndedAllocator) (kv kv' : Nat → α) : Prop where
  bound : ∀ v, s'.virtualToPhysical v ≠ none ↔ s.virtualToPhysical v ≠ none ∧ v ∉ freed
  content : ∀ v p p', s.virtualToPhysical v = some p → s'.virtualToPhysical v = some p' →
    ∀ o < c.pageSize, kv' (p' * c.pageSize + o) = kv (p * c.pageSize + o)
  srcs_nodup : (batch.map fst).Nodup
  dsts_nodup : (batch.map snd).Nodup
  disjoint : ∀ p ∈ batch.map fst, p ∉ batch.map snd

/-! ### The tokens of a page -/

section Tokens

variable {α : Type*} {c : AllocConfig} {kv : Nat → α} {pages : List Nat}

theorem expandPages_eq (c : AllocConfig) (pages : List Nat) :
    expandPages c pages = pages.flatMap fun p => (List.range c.pageSize).map (p * c.pageSize + ·) := by
  unfold expandPages
  split_ifs with h
  · simp [h]
  · rfl

theorem mem_expandPages {p o : Nat} (ho : o < c.pageSize) :
    p * c.pageSize + o ∈ expandPages c pages ↔ p ∈ pages := by
  rw [expandPages_eq, mem_flatMap]
  constructor
  · rintro ⟨q, hq, ht⟩
    obtain ⟨o', ho', heq⟩ := mem_map.mp ht
    have hdiv := congrArg (· / c.pageSize) heq
    simp only [Nat.mul_comm _ c.pageSize, Nat.mul_add_div c.pageSize_pos,
      Nat.div_eq_of_lt ho, Nat.div_eq_of_lt (mem_range.mp ho'), Nat.add_zero] at hdiv
    exact hdiv ▸ hq
  · exact fun hp => ⟨p, hp, mem_map.mpr ⟨o, mem_range.mpr ho, rfl⟩⟩

theorem length_expandPages (pages : List Nat) :
    (expandPages c pages).length = pages.length * c.pageSize := by
  rw [expandPages_eq]
  induction pages with
  | nil => simp
  | cons p pages ih =>
    rw [flatMap_cons, length_append, ih, length_map, length_range,
      length_cons, Nat.succ_mul, Nat.add_comm]

theorem nodup_expandPages (h : pages.Nodup) : (expandPages c pages).Nodup := by
  induction pages with
  | nil => simp [expandPages_eq]
  | cons p pages ih =>
    obtain ⟨hp, hnd⟩ := nodup_cons.mp h
    have hrest := ih hnd
    rw [expandPages_eq] at hrest ⊢
    rw [flatMap_cons]
    refine nodup_append.mpr ⟨?_, hrest, ?_⟩
    · exact nodup_range.map fun a b hab => Nat.add_left_cancel hab
    · rintro t ht t' ht' rfl
      obtain ⟨o, ho, rfl⟩ := mem_map.mp ht
      rw [← expandPages_eq] at ht'
      exact hp ((mem_expandPages (mem_range.mp ho)).mp ht')

theorem mem_zip_expandPages {dsts srcs : List Nat} {d s o : Nat} (h : (d, s) ∈ dsts.zip srcs)
    (ho : o < c.pageSize) :
    (d * c.pageSize + o, s * c.pageSize + o) ∈ (expandPages c dsts).zip (expandPages c srcs) := by
  rw [expandPages_eq, expandPages_eq]
  induction dsts generalizing srcs with
  | nil => cases h
  | cons d' dsts ih =>
    cases srcs with
    | nil => cases h
    | cons s' srcs =>
      rw [flatMap_cons, flatMap_cons, zip_append (by simp)]
      rcases mem_cons.mp h with heq | h
      · obtain ⟨rfl, rfl⟩ := mk.inj heq
        refine mem_append_left _ ?_
        rw [zip_map', mem_map]
        exact ⟨o, mem_range.mpr ho, rfl⟩
      · exact mem_append_right _ (ih h)

end Tokens

/-! ### Moving the pages of a table -/

section

variable {α : Type*} {c : AllocConfig} {s s' : MultiEndedAllocator} {freed vs freeIndex : List Nat}
  {batch : List (Nat × Nat)} {v wm : Nat} {gated : Bool}

/-- What both kinds of compaction come to: pages are freed, and some of the others are moved to
places that hold none of those that are left. -/
theorem invisible_of_moves (kv : Nat → α)
    (hinv : MutuallyInverse s.virtualToPhysical s.physicalToVirtual)
    (hs : (batch.map fst).Nodup) (hd : (batch.map snd).Nodup)
    (hg : gather s.physicalToVirtual (batch.map fst) = some vs) (hkeep : ∀ v ∈ vs, v ∉ freed)
    (hfree : ∀ d ∈ batch.map snd, ∀ v, s.virtualToPhysical v = some d → v ∈ freed)
    (heq : s'.virtualToPhysical =
      scatter (wipe s.virtualToPhysical freed) vs (batch.map snd)) :
    Invisible c freed batch s s' kv (moveKvCache c kv batch) := by
  obtain ⟨hbound, hmoved⟩ := hinv.relocate hs hg (by simp) hkeep hfree
  refine ⟨fun v => heq ▸ hbound v, fun v p p' hp hp' o ho => ?_, hs, hd, fun p hp hpd => ?_⟩
  · rw [heq] at hp'
    rcases hmoved v p p' hp hp' with ⟨rfl, hnot⟩ | hz
    · exact copyBatch_of_not_mem fun hm => hnot ((mem_expandPages ho).mp hm)
    · refine copyBatch_of_mem (nodup_expandPages hd) ?_ (mem_zip_expandPages hz ho)
      rw [length_expandPages, length_expandPages, length_map, length_map]
  · -- the page at a source is bound to an id that stays
    obtain ⟨v, hv, hpv⟩ := exists_of_mem_keys hg hp
    exact hkeep v hv (hfree p hpd v ((hinv v p).mpr hpv))

/-- An operation that moves nothing. -/
theorem invisible_of_wipe (kv : Nat → α)
    (heq : s'.virtualToPhysical = wipe s.virtualToPhysical freed) :
    Invisible c freed [] s s' kv (moveKvCache c kv []) := by
  refine ⟨fun v => ?_, fun v p p' hp hp' o _ => ?_, nodup_nil, nodup_nil, fun p hp => ?_⟩
  · rw [heq]
    unfold wipe
    split_ifs with hv <;> simp [hv]
  · rw [heq] at hp'
    obtain rfl := Option.some.inj (hp.symm.trans (wipe_eq_some_iff.mp hp').2)
    exact copyBatch_of_not_mem (by simp [expandPages])
  · cases hp

/-! ### Lazy mode -/

theorem wipe_congr {t : Nat → Option Nat} {ks ks' : List Nat} (h : ∀ k, k ∈ ks ↔ k ∈ ks') :
    wipe t ks = wipe t ks' := by
  funext k
  simp only [wipe, h k]

theorem wipe_nil (t : Nat → Option Nat) : wipe t [] = t :=
  funext fun k => by simp [wipe]

theorem mem_tokenPages {tokens : List Nat} :
    v ∈ tokenPages c tokens ↔ v ∈ tokens.map (· / c.pageSize) := by
  unfold tokenPages
  split_ifs with h
  · simp [h]
  · rw [(perm_insertionSort _ _).mem_iff, mem_dedup]

theorem free_invisible (kv : Nat → α) (h : s.free c freeIndex = some s') :
    Invisible c ((CompactionOp.free freeIndex).freed c s) [] s s' kv (moveKvCache c kv []) := by
  refine invisible_of_wipe kv ?_
  rw [free] at h
  simp only [CompactionOp.freed]
  split_ifs at h with hnil hgroup
  · obtain rfl := Option.some.inj h
    subst hnil
    simp [wipe_nil]
  · obtain ⟨ps, -, rfl⟩ := Option.map_eq_some_iff.mp h
    rw [if_pos hgroup]
    exact wipe_congr fun v => mem_tokenPages
  · obtain rfl := Option.some.inj h
    rw [if_neg hgroup, wipe_nil]

/-- A commit rewrites the table of the moved ids; `pack` is the exit of the pass. -/
theorem commitMoveBatch_virtualToPhysical {s₀ : MultiEndedAllocator} {moves : List (Nat × Nat)}
    {latest : Option Event} {fired : Event → Bool}
    {pack : MultiEndedAllocator × List Nat → MultiEndedAllocator}
    (hg : gather s.physicalToVirtual (moves.map fst) = some vs)
    (hv : s₀.virtualToPhysical = s.virtualToPhysical)
    (hp : s₀.physicalToVirtual = s.physicalToVirtual)
    (hpack : ∀ r, (pack r).virtualToPhysical = r.1.virtualToPhysical) :
    ∃ s', (s₀.commitMoveBatch moves latest fired).map pack = some s' ∧
      s'.virtualToPhysical = scatter s.virtualToPhysical vs (moves.map snd) := by
  rw [commitMoveBatch]
  split_ifs with hnil
  · subst hnil
    obtain rfl := Option.some.inj hg
    exact ⟨_, rfl, (hpack _).trans hv⟩
  · simp only [hp, hg, Option.map_some]
    refine ⟨_, rfl, (hpack _).trans ?_⟩
    cases latest.filter fun e => !fired e with
    | none => exact hv ▸ rfl
    | some e => exact hv ▸ rfl

/-- What a flush does to the table of virtual ids. -/
theorem flush_virtualToPhysical {timing : Timing} {urgent : Bool}
    (hg : gather s.physicalToVirtual ((s.flushBatch c timing urgent).map fst) = some vs) :
    ∃ s', s.flush c timing urgent = some s' ∧
      s'.virtualToPhysical =
        scatter s.virtualToPhysical vs ((s.flushBatch c timing urgent).map snd) := by
  unfold flush
  unfold flushBatch at hg ⊢
  by_cases hclosed : (!timing.moveGate)
  · rw [if_pos hclosed] at hg ⊢
    obtain rfl := Option.some.inj hg
    exact ⟨s, rfl, by rw [if_pos hclosed]; rfl⟩
  rw [if_neg hclosed] at hg ⊢
  rw [if_neg hclosed]
  obtain ⟨-, -, hv, hp⟩ := prepareFlush_frame (c := c) s timing urgent
  rw [← hp] at hg
  rw [← hv]
  -- neither the forward slot nor the exit touches the tables
  by_cases hholes : (urgent && decide ((s.prepareFlush c timing urgent).freePhysPages ≠ []))
  · rw [if_pos hholes]
    refine commitMoveBatch_virtualToPhysical hg ?_ ?_ fun _ => rfl
    · split_ifs <;> rfl
    · split_ifs <;> rfl
  · rw [if_neg hholes]
    refine commitMoveBatch_virtualToPhysical hg ?_ ?_ fun _ => rfl
    · split_ifs <;> rfl
    · split_ifs <;> rfl

/-- The batch of a flush fills holes from pages that are bound. -/
theorem flushBatch_spec (hinv : Inv c s) (timing : Timing) (urgent : Bool) :
    (∃ vs, gather s.physicalToVirtual ((s.flushBatch c timing urgent).map fst) = some vs) ∧
    ((s.flushBatch c timing urgent).map fst).Nodup ∧
    ((s.flushBatch c timing urgent).map snd).Nodup ∧
    ∀ d ∈ (s.flushBatch c timing urgent).map snd, s.physicalToVirtual d = none := by
  unfold flushBatch
  split_ifs
  · exact ⟨⟨[], rfl⟩, nodup_nil, nodup_nil, fun d hd => (nomatch hd)⟩
  obtain ⟨hprep, hsorted⟩ := hinv.prepareFlush timing urgent
  obtain ⟨-, -, -, hp⟩ := prepareFlush_frame (c := c) s timing urgent
  rw [← hp]
  set s₁ := s.prepareFlush c timing urgent
  have hw : Walked c _ _ _ _ (s₁.flushMoves c timing urgent) := walk_outward hsorted _ _
  obtain ⟨vs, hg, -⟩ := hprep.commit hw
  have hholes : (c.outward s₁.freePhysPages).Nodup :=
    (c.outward_perm _).nodup_iff.mpr (nodup_append.mp hprep.classes.nodup).1
  refine ⟨⟨vs, hg⟩, hw.sorted.imp fun ho => ho.ne, ?_, fun d hd => ?_⟩
  · rw [hw.dsts_eq]
    exact hholes.sublist (take_sublist _ _)
  · rw [hw.dsts_eq] at hd
    have hmem := AllocConfig.mem_outward.mp (mem_of_mem_take hd)
    exact ((hprep.classes.mem_iff d).mp (mem_append_left _ hmem)).2

/-- **A flush is invisible.** -/
theorem flush_invisible (hinv : Inv c s) (kv : Nat → α) (timing : Timing) (urgent : Bool) :
    ∃ s', s.flush c timing urgent = some s' ∧
      Invisible c [] (s.flushBatch c timing urgent) s s' kv
        (moveKvCache c kv (s.flushBatch c timing urgent)) := by
  obtain ⟨⟨vs, hg⟩, hs, hd, hholes⟩ := flushBatch_spec hinv timing urgent
  obtain ⟨s', hflush, htable⟩ := flush_virtualToPhysical hg
  refine ⟨s', hflush, invisible_of_moves kv hinv.inverse hs hd hg (fun _ _ => not_mem_nil) ?_
    (by rw [htable, wipe_nil])⟩
  intro d hd v hv
  exact absurd ((hinv.inverse v d).mp hv) (by simp [hholes d hd])

/-! ### Eager mode -/

theorem mem_freeVPages :
    v ∈ ((freeIndex.map (· / c.pageSize)).dedup).insertionSort (· ≤ ·) ↔
      v ∈ freeIndex.map (· / c.pageSize) := by
  rw [(perm_insertionSort _ _).mem_iff, mem_dedup]

theorem nodup_vacatedBand (c : AllocConfig) (wm k : Nat) : (vacatedBand c wm k).Nodup := by
  unfold vacatedBand
  cases c.growDirection <;> exact nodup_range'

/-- **Compaction in eager mode is invisible.** -/
theorem compactPending_invisible (kv : Nat → α) {freedPages : List Nat} {s₁ : MultiEndedAllocator}
    (hinv : MutuallyInverse s.virtualToPhysical s.physicalToVirtual)
    (hfreed : gather s.virtualToPhysical freed = some freedPages)
    (h : compactPending c gated s₁ freedPages = some (s', batch))
    (hv : s₁.virtualToPhysical = wipe s.virtualToPhysical freed)
    (hp : s₁.physicalToVirtual = s.physicalToVirtual) :
    Invisible c freed batch s s' kv (moveKvCache c kv batch) := by
  unfold compactPending at h
  simp only at h
  split_ifs at h with _ hnil _ _ hlen
  · obtain ⟨rfl, rfl⟩ := mk.inj (Option.some.inj h)
    exact invisible_of_wipe kv hv
  obtain ⟨vs, hg, heq⟩ := Option.map_eq_some_iff.mp h
  obtain ⟨rfl, rfl⟩ := mk.inj heq
  rw [hp] at hg
  have hlen := not_not.mp hlen
  have hsrcs : ∀ p ∈ (vacatedBand c s₁.watermark freedPages.dedup.length).filter
      (· ∉ freedPages.dedup), p ∉ freedPages := by
    intro p hp hmem
    have hnot := (mem_filter.mp hp).2
    exact of_decide_eq_true hnot (mem_dedup.mpr hmem)
  have hdsts : ∀ p ∈ (freedPages.dedup.filter fun h =>
      c.InBand (c.retreat s₁.watermark freedPages.dedup.length) h).insertionSort (· ≤ ·),
        p ∈ freedPages := by
    intro p hp
    rw [(perm_insertionSort _ _).mem_iff] at hp
    exact mem_dedup.mp (mem_filter.mp hp).1
  have hs := (nodup_vacatedBand c s₁.watermark freedPages.dedup.length).filter
    fun p => decide (p ∉ freedPages.dedup)
  have hd : ((freedPages.dedup.filter fun h =>
      c.InBand (c.retreat s₁.watermark freedPages.dedup.length) h).insertionSort (· ≤ ·)).Nodup :=
    (perm_insertionSort _ _).nodup_iff.mpr ((nodup_dedup freedPages).filter _)
  generalize (vacatedBand c s₁.watermark freedPages.dedup.length).filter
    (fun p => decide (p ∉ freedPages.dedup)) = srcs at *
  generalize (freedPages.dedup.filter fun h => decide
    (c.InBand (c.retreat s₁.watermark freedPages.dedup.length) h)).insertionSort (· ≤ ·) = dsts at *
  have hfst : (srcs.zip dsts).map fst = srcs := map_fst_zip hlen.le
  have hsnd : (srcs.zip dsts).map snd = dsts := map_snd_zip hlen.ge
  refine invisible_of_moves kv hinv (hfst.symm ▸ hs) (hsnd.symm ▸ hd) (hfst.symm ▸ hg) ?_ ?_ ?_
  · -- a source is not one of the freed pages, so its id is not freed
    intro v hv hvf
    obtain ⟨p, hp, hpv⟩ := exists_of_mem_gather hg hv
    obtain ⟨p', hp', hvp'⟩ := exists_of_mem_keys hfreed hvf
    obtain rfl := Option.some.inj (((hinv v p).mpr hpv).symm.trans hvp')
    exact hsrcs p hp hp'
  · rw [hsnd]
    intro d hd v hvd
    obtain ⟨v', hv', hvd'⟩ := exists_of_mem_gather hfreed (hdsts d hd)
    exact hinv.inj hvd' hvd ▸ hv'
  · rw [hsnd, ← hv]

theorem freeEager_invisible (kv : Nat → α)
    (hinv : MutuallyInverse s.virtualToPhysical s.physicalToVirtual)
    (h : s.freeEager c gated freeIndex = some (s', batch)) :
    Invisible c ((CompactionOp.free freeIndex).freed c s) batch s s' kv
      (moveKvCache c kv batch) := by
  rw [freeEager] at h
  simp only [CompactionOp.freed]
  by_cases hnil : freeIndex = []
  · rw [if_pos hnil] at h
    obtain ⟨rfl, rfl⟩ := mk.inj (Option.some.inj h)
    subst hnil
    exact invisible_of_wipe kv (by simp [wipe_nil])
  rw [if_neg hnil] at h
  by_cases hgroup : s.isNotInFreeGroup
  · rw [if_pos hgroup] at h ⊢
    obtain ⟨ps, hg, h⟩ := Option.bind_eq_some_iff.mp h
    have hinvisible := compactPending_invisible kv hinv hg h rfl rfl
    exact { hinvisible with
      bound := fun v => (hinvisible.bound v).trans (by rw [mem_freeVPages]) }
  · rw [if_neg hgroup] at h ⊢
    obtain ⟨rfl, rfl⟩ := mk.inj (Option.some.inj h)
    exact invisible_of_wipe kv (by simp [wipe_nil])

theorem mem_vacatedBand {k p : Nat} (hok : c.WatermarkOk wm) (hk : k ≤ c.allocatedPages wm) :
    p ∈ vacatedBand c wm k ↔ c.InBand wm p ∧ ¬ c.InBand (c.retreat wm k) p := by
  unfold AllocConfig.WatermarkOk at hok
  unfold AllocConfig.allocatedPages at hk
  unfold vacatedBand AllocConfig.InBand AllocConfig.retreat
  cases hd : c.growDirection <;> simp only [hd, mem_range'_1] at hok hk ⊢ <;> omega

theorem length_vacatedBand (c : AllocConfig) (wm k : Nat) : (vacatedBand c wm k).length = k := by
  unfold vacatedBand
  cases c.growDirection <;> exact length_range'

/-- As many pages are kept of the vacated band as there are freed pages to fill. -/
theorem length_srcs_eq (hok : c.WatermarkOk wm) (hnd : freed.Nodup)
    (hband : ∀ p ∈ freed, c.InBand wm p) (hk : freed.length ≤ c.allocatedPages wm) :
    ((vacatedBand c wm freed.length).filter (· ∉ freed)).length =
      (freed.filter fun h => c.InBand (c.retreat wm freed.length) h).length := by
  have hvac := length_eq_length_filter_add (l := vacatedBand c wm freed.length)
    fun p => decide (p ∉ freed)
  have hfreed := length_eq_length_filter_add (l := freed)
    fun p => decide (c.InBand (c.retreat wm freed.length) p)
  rw [length_vacatedBand] at hvac
  -- the freed pages of the vacated band, counted from both sides
  have hboth : ((vacatedBand c wm freed.length).filter fun p => !decide (p ∉ freed)).Perm
      (freed.filter fun p => !decide (c.InBand (c.retreat wm freed.length) p)) := by
    refine (perm_ext_iff_of_nodup ((nodup_vacatedBand _ _ _).filter _) (hnd.filter _)).mpr ?_
    intro p
    simp only [mem_filter, mem_vacatedBand hok hk, decide_not, Bool.not_not, decide_eq_true_eq,
      Bool.not_eq_eq_eq_not, Bool.not_true, decide_eq_false_iff_not]
    constructor
    · exact fun h => ⟨h.2, h.1.2⟩
    · exact fun h => ⟨⟨hband p h.1, h.2⟩, h.1⟩
  have := hboth.length_eq
  omega

/-- Distinct pages of a band without holes can be compacted away. -/
theorem exists_compactPending {ps : List Nat}
    (hclasses : Classes c s.watermark s.physicalToVirtual []) (hnd : ps.Nodup)
    (hband : ∀ p ∈ ps, c.InBand s.watermark p) : ∃ r, compactPending c false s ps = some r := by
  have hk : ps.length ≤ c.allocatedPages s.watermark := by
    rw [← Classes.card_bandPages hclasses.ok, ← toFinset_card_of_nodup hnd]
    exact Finset.card_le_card fun p hp =>
      (Classes.mem_bandPages hclasses.ok).mpr (hband p (mem_toFinset.mp hp))
  have hlen := length_srcs_eq hclasses.ok hnd hband hk
  obtain ⟨vs, hg⟩ : ∃ vs, gather s.physicalToVirtual
      ((vacatedBand c s.watermark ps.length).filter fun p => decide (p ∉ ps)) = some vs := by
    refine exists_gather fun p hp hnone => ?_
    have hp := ((mem_vacatedBand hclasses.ok hk).mp (mem_filter.mp hp).1).1
    exact absurd ((hclasses.mem_iff p).mpr ⟨hp, hnone⟩) not_mem_nil
  simp only [compactPending, hnd.dedup, Bool.false_eq_true, if_false]
  by_cases hnil : ps = []
  · rw [if_pos hnil]
    exact ⟨_, rfl⟩
  · rw [if_neg hnil, if_neg (Nat.not_lt.mpr hk), if_neg (not_not.mpr hband), if_neg, hg]
    · exact ⟨_, rfl⟩
    · rw [(perm_insertionSort _ _).length_eq, hlen]
      exact not_not.mpr rfl

/-- A free of bound pages has a result. -/
theorem EagerInv.exists_freeEager (hinv : EagerInv c s)
    (hbound : s.isNotInFreeGroup → ∀ t ∈ freeIndex,
      t / c.pageSize ≠ 0 ∧ s.virtualToPhysical (t / c.pageSize) ≠ none) :
    ∃ r, s.freeEager c false freeIndex = some r := by
  rw [freeEager]
  by_cases hnil : freeIndex = []
  · rw [if_pos hnil]
    exact ⟨_, rfl⟩
  rw [if_neg hnil]
  by_cases hgroup : s.isNotInFreeGroup
  swap
  · rw [if_neg hgroup]
    exact ⟨_, rfl⟩
  rw [if_pos hgroup]
  have hpages : ∀ v ∈ ((freeIndex.map (· / c.pageSize)).dedup).insertionSort (· ≤ ·),
      v ≠ 0 ∧ s.virtualToPhysical v ≠ none := by
    intro v hv
    obtain ⟨t, ht, rfl⟩ := mem_map.mp (mem_freeVPages.mp hv)
    exact hbound hgroup t ht
  obtain ⟨ps, hg⟩ := exists_gather fun v hv => (hpages v hv).2
  have hnd : ps.Nodup := by
    refine hinv.inverse.nodup_gather ?_ hg
    exact (perm_insertionSort _ _).nodup_iff.mpr (nodup_dedup _)
  have hband : ∀ p ∈ ps, c.InBand s.watermark p := by
    intro p hp
    obtain ⟨v, hv, hvp⟩ := exists_of_mem_gather hg hp
    have hpv := (hinv.inverse v p).mp hvp
    refine (hinv.classes.bound p v hpv).resolve_left ?_
    rintro rfl
    exact (hpages v hv).1 (Option.some.inj (hpv.symm.trans hinv.classes.sink))
  simp only [hg, Option.bind_some]
  exact exists_compactPending hinv.classes hnd hband

/-- A free of bound pages in lazy mode has a result. -/
theorem exists_free (hbound : s.isNotInFreeGroup → ∀ t ∈ freeIndex,
      s.virtualToPhysical (t / c.pageSize) ≠ none) : ∃ s', s.free c freeIndex = some s' := by
  rw [free]
  split_ifs with hnil hgroup
  · exact ⟨_, rfl⟩
  · have hpages : ∀ v ∈ tokenPages c freeIndex, s.virtualToPhysical v ≠ none := by
      intro v hv
      obtain ⟨t, ht, rfl⟩ := mem_map.mp (mem_tokenPages.mp hv)
      exact hbound hgroup t ht
    obtain ⟨ps, hg⟩ := exists_gather hpages
    simp only [freeLazy, hg, Option.map_some]
    exact ⟨_, rfl⟩
  · exact ⟨_, rfl⟩

/-! ### The result -/

/-- The tables of a sub-pool without holes are those of eager mode. -/
theorem MultiEndedAllocator.Inv.eager (h : Inv c s) (hfree : s.freePhysPages = [])
    (hpend : s.pendingReuse = []) : EagerInv c s := by
  refine ⟨?_, h.inverse⟩
  have hclasses := h.classes
  rwa [hfree, pendingPages, hpend] at hclasses

/-- **Compaction is invisible**, in both modes.  A flush always has a result, and so has a free of
bound pages (in eager mode without a move gate). -/
theorem compaction_invisible (c : AllocConfig) (gated : Bool) (mode : Mode)
    (s : MultiEndedAllocator) (kv : Nat → α) (h : TableInv c s mode) :
    (∀ (op : CompactionOp) s' batch, op.run c gated s mode = some (s', batch) →
      Invisible c (op.freed c s) batch s s' kv (moveKvCache c kv batch)) ∧
    (∀ timing urgent, ∃ r, (CompactionOp.flush timing urgent).run c gated s mode = some r) ∧
    ∀ freeIndex, (mode = .eager → gated = false) →
      (s.isNotInFreeGroup = true → ∀ t ∈ freeIndex,
        t / c.pageSize ≠ 0 ∧ s.virtualToPhysical (t / c.pageSize) ≠ none) →
      ∃ r, (CompactionOp.free freeIndex).run c gated s mode = some r := by
  cases mode with
  | lazy =>
    refine ⟨fun op s' batch hrun => ?_, fun timing urgent => ?_, fun freeIndex _ hbound => ?_⟩
    · cases op with
      | free freeIndex =>
        obtain ⟨s₁, hfree, heq⟩ := Option.map_eq_some_iff.mp hrun
        obtain ⟨rfl, rfl⟩ := mk.inj heq
        exact free_invisible kv hfree
      | flush timing urgent =>
        obtain ⟨s₁, hflush, heq⟩ := Option.map_eq_some_iff.mp hrun
        obtain ⟨rfl, rfl⟩ := mk.inj heq
        obtain ⟨s₂, hflush', hinvisible⟩ := flush_invisible h kv timing urgent
        obtain rfl := Option.some.inj (hflush.symm.trans hflush')
        exact hinvisible
    · obtain ⟨s', hflush, -⟩ := flush_invisible h kv timing urgent
      exact ⟨_, by rw [CompactionOp.run, hflush, Option.map_some]⟩
    · obtain ⟨s', hfree⟩ := exists_free fun hgroup t ht => (hbound hgroup t ht).2
      exact ⟨_, by rw [CompactionOp.run, hfree, Option.map_some]⟩
  | eager =>
    refine ⟨fun op s' batch hrun => ?_, fun _ _ => ⟨_, rfl⟩, fun freeIndex hgate hbound => ?_⟩
    · cases op with
      | free freeIndex => exact freeEager_invisible kv h.inverse hrun
      | flush timing urgent =>
        obtain ⟨rfl, rfl⟩ := mk.inj (Option.some.inj hrun)
        exact invisible_of_wipe kv (wipe_nil _).symm
    · obtain rfl := hgate rfl
      exact EagerInv.exists_freeEager h hbound

/-- Four pages are bound; the second is freed in eager mode, and the last takes its place. -/
theorem compaction_invisible_second_of_four :
    ∃ s s' : MultiEndedAllocator, TableInv (smallPools .first) s .eager ∧
      (CompactionOp.free [2]).run (smallPools .first) false s .eager = some (s', [(4, 2)]) ∧
      Invisible (smallPools .first) [2] [(4, 2)] s s' id
        (moveKvCache (smallPools .first) id [(4, 2)]) := by
  have hrun : ∃ P ∈ replay smallPools true (fun P st => ¬ P.Replaces smallPools st)
      [⟨.first, answering false, .alloc 4⟩] (Pool.clear smallPools),
        (P .first).freePhysPages = [] ∧ (P .first).pendingReuse = [] ∧
        (P .first).isNotInFreeGroup = true ∧
        ∃ r ∈ (CompactionOp.free [2]).run (smallPools .first) false (P .first) .eager,
          r.2 = [(4, 2)] := by
    decide +kernel
  obtain ⟨P, hP, hfree, hpend, hgroup, ⟨s', batch⟩, hr, rfl⟩ := hrun
  have hinv := PoolInv.run (fun i => inv_clear (smallPools i)) (Run.of_replay hP) .first
  have htable : TableInv (smallPools .first) (P .first) .eager := hinv.eager hfree hpend
  obtain ⟨hinvisible, -⟩ := compaction_invisible (smallPools .first) false .eager (P .first) id htable
  have h := hinvisible (.free [2]) s' [(4, 2)] hr
  simp only [CompactionOp.freed, hgroup, if_true] at h
  exact ⟨P .first, s', htable, hr, h⟩

end

end SglangRuntime.MultiEnded
