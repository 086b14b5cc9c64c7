import SglangRuntime.MemCache.MultiEnded.Invariant
import Mathlib.Data.List.TakeWhile

/-!
# Memory cache — a flush of `MultiEndedAllocator`

The two-pointer walk takes live pages from the frontier inwards and holes from the anchored end
outwards (`walk_spec`).  The sources are live and lie farther out than every hole they fill, so a
commit is a move between the classes; when the walk of an urgent pass ends, every page left unbound
lies farther out than every bound one, and the watermark can retreat past them all.
-/

namespace SglangRuntime.MultiEnded

open Foundation List AllocConfig Prod

namespace AllocConfig

variable {c : AllocConfig} {wm k p q : Nat} {r : Nat}

/-- `q` is `p` or lies inwards of it. -/
def InFrom (c : AllocConfig) (p q : Nat) : Prop :=
  match c.growDirection with
  | .up => c.minPageIndex ≤ q ∧ q ≤ p
  | .down => p ≤ q ∧ q < c.numPages

theorem inFrom_edge (h : c.WatermarkOk wm) : c.InFrom (c.edge wm) q ↔ c.InBand wm q := by
  have := c.minPageIndex_pos
  unfold WatermarkOk at h
  unfold InFrom edge InBand
  cases hd : c.growDirection <;> simp only [hd] at h ⊢ <;> omega

theorem not_inFrom_of_pagesFrom (h : c.pagesFrom p = 0) : ¬ c.InFrom p q := by
  unfold pagesFrom at h
  unfold InFrom
  cases hd : c.growDirection <;> simp only [hd] at h ⊢ <;> omega

section

variable (h : c.pagesFrom p = k + 1)
include h

theorem pagesFrom_inward : c.pagesFrom (c.inward p) = k := by
  have := c.minPageIndex_pos
  unfold pagesFrom at *
  unfold inward
  cases hd : c.growDirection <;> simp only [hd] at h ⊢ <;> omega

theorem inFrom_self : c.InFrom p p := by
  unfold pagesFrom at h
  unfold InFrom
  cases hd : c.growDirection <;> simp only [hd] at h ⊢ <;> omega

theorem inFrom_iff :
    c.InFrom p q ↔ q = p ∨ c.InFrom (c.inward p) q := by
  unfold pagesFrom at h
  unfold InFrom inward
  cases hd : c.growDirection <;> simp only [hd] at h ⊢ <;> omega

end

/-- The pages inwards of `p` are those that `p` is farther out than. -/
theorem InFrom.inward_iff (h : c.InFrom p q) : c.InFrom (c.inward p) q ↔ c.Outer p q := by
  have := c.minPageIndex_pos
  unfold InFrom at *
  unfold inward Outer
  cases hd : c.growDirection <;> simp only [hd] at h ⊢ <;> omega

theorem InFrom.not_outer (h : c.InFrom p q) : ¬ c.Outer q p := by
  unfold InFrom at h
  unfold Outer
  cases hd : c.growDirection <;> simp only [hd] at h ⊢ <;> omega

theorem InFrom.of_inward (h : c.InFrom p q) (h' : c.InFrom (c.inward q) r) :
    c.Outer q r ∧ c.InFrom p r := by
  have := c.minPageIndex_pos
  unfold InFrom inward at *
  unfold Outer
  cases hd : c.growDirection <;> simp only [hd] at h h' ⊢ <;> omega

/-- Between two pages on the way inwards. -/
theorem InFrom.of_outer (h : c.InFrom p r) (hq : c.Outer q r) (hp : ¬ c.Outer q p) :
    c.InFrom p q ∧ c.InFrom q r := by
  unfold InFrom at *
  unfold Outer at *
  cases hd : c.growDirection <;> simp only [hd] at h hq hp ⊢ <;> omega

theorem InFrom.inward_not_outer {e : Nat} (h : c.InFrom p q) (he : ¬ c.Outer p e) :
    ¬ c.Outer (c.inward q) e := by
  unfold InFrom at h
  unfold Outer inward at *
  cases hd : c.growDirection <;> simp only [hd] at h he ⊢ <;> omega

end AllocConfig

namespace MultiEndedAllocator

variable {c : AllocConfig} {s s' : MultiEndedAllocator} {all holes dsts l : List Nat} {p : Nat}
  {pending : Finset Nat} {cursor : Option Nat} {writeSet : List Nat} {moveCap : Option Nat}
  {n : Nat}

/-! ### The topmost survivor -/

theorem mem_dropWhile_of_not {α : Type*} {f : α → Bool} {l : List α} {x : α} (hx : x ∈ l)
    (hf : f x = false) : x ∈ l.dropWhile f := by
  rw [← takeWhile_append_dropWhile (p := f) (l := l), mem_append] at hx
  refine hx.resolve_left fun ht => ?_
  rw [mem_takeWhile_imp ht] at hf
  cases hf

/-- The hole cursor at page `p`: it holds the holes at and inwards of `p`, outermost first. -/
structure Cursor (c : AllocConfig) (all : List Nat) (p : Nat) (holes : List Nat) : Prop where
  sorted : holes.Pairwise c.Outer
  sub : ∀ h ∈ holes, h ∈ all
  cover : ∀ h ∈ all, c.InFrom p h → h ∈ holes

theorem Cursor.dropWhile (h : Cursor c all p holes) :
    Cursor c all p (holes.dropWhile fun h => decide (c.Outer h p)) := by
  refine ⟨h.sorted.sublist (dropWhile_sublist _), fun x hx => ?_, fun x hx hp => ?_⟩
  · exact h.sub x ((dropWhile_sublist _).subset hx)
  · exact mem_dropWhile_of_not (h.cover x hx hp) (decide_eq_false hp.not_outer)

/-- After the cursor has passed the holes beyond `p`, it is at `p` exactly when `p` is a hole. -/
theorem Cursor.head?_iff (h : Cursor c all p holes) (hp : c.InFrom p p) :
    (holes.dropWhile fun h => decide (c.Outer h p)).head? = some p ↔ p ∈ all := by
  have hd := h.dropWhile
  have hhead : ∀ x, (holes.dropWhile fun h => decide (c.Outer h p)).head? = some x →
      ¬ c.Outer x p := by
    intro x hx
    have := head?_dropWhile_not (fun h => decide (c.Outer h p)) holes
    rw [hx] at this
    simpa using this
  generalize holes.dropWhile (fun h => decide (c.Outer h p)) = l at hd hhead
  constructor
  · intro e
    exact hd.sub p (mem_of_head? e)
  intro hm
  have hpl := hd.cover p hm hp
  cases l with
  | nil => cases hpl
  | cons x l =>
    rcases mem_cons.mp hpl with rfl | hpl
    · rfl
    · exact absurd (rel_of_pairwise_cons hd.sorted hpl) (hhead x rfl)

/-- What `_topmost_survivor` returns: the first page inwards of `p` that is neither a hole nor
pending, with the cursor for the rest. -/
theorem survivorFrom_spec (pending : Finset Nat) {k : Nat}
    (hk : c.pagesFrom p = k) (hc : Cursor c all p holes) :
    (∀ holes', survivorFrom c pending k p holes = (none, holes') →
      ∀ q, c.InFrom p q → q ∈ all ∨ q ∈ pending) ∧
    (∀ src holes', survivorFrom c pending k p holes = (some src, holes') →
      c.InFrom p src ∧ src ∉ all ∧ src ∉ pending ∧
        (∀ q, c.InFrom p q → c.Outer q src → q ∈ all ∨ q ∈ pending) ∧
        Cursor c all (c.inward src) holes') := by
  induction k generalizing p holes with
  | zero =>
    refine ⟨fun _ _ q hq => absurd hq (not_inFrom_of_pagesFrom hk), fun src _ h => ?_⟩
    simp [survivorFrom] at h
  | succ k ih =>
    have hself := inFrom_self hk
    have hk' := pagesFrom_inward hk
    have hd := hc.dropWhile
    have hiff := hc.head?_iff hself
    simp only [survivorFrom]
    generalize hl : holes.dropWhile (fun h => decide (c.Outer h p)) = l at hd hiff
    -- the page at `p` is passed over, and the walk goes on inwards
    have pass (l' : List Nat) (hp : p ∈ all ∨ p ∈ pending) (hc' : Cursor c all (c.inward p) l') :
        (∀ holes', survivorFrom c pending k (c.inward p) l' = (none, holes') →
          ∀ q, c.InFrom p q → q ∈ all ∨ q ∈ pending) ∧
        (∀ src holes', survivorFrom c pending k (c.inward p) l' = (some src, holes') →
          c.InFrom p src ∧ src ∉ all ∧ src ∉ pending ∧
            (∀ q, c.InFrom p q → c.Outer q src → q ∈ all ∨ q ∈ pending) ∧
            Cursor c all (c.inward src) holes') := by
      obtain ⟨hnone, hsome⟩ := ih hk' hc'
      refine ⟨fun holes' h q hq => ?_, fun src holes' h => ?_⟩
      · rcases (inFrom_iff hk).mp hq with rfl | hq
        · exact hp
        · exact hnone holes' h q hq
      · obtain ⟨hin, hall, hpen, hout, hcur⟩ := hsome src holes' h
        refine ⟨(inFrom_iff hk).mpr (.inr hin), hall, hpen, fun q hq ho => ?_, hcur⟩
        rcases (inFrom_iff hk).mp hq with rfl | hq
        · exact hp
        · exact hout q hq ho
    -- the cursor for the pages inwards of `p`
    have hin (h : Nat) (hh : c.InFrom (c.inward p) h) : c.InFrom p h ∧ h ≠ p := by
      have hp := (inFrom_iff hk).mpr (.inr hh)
      exact ⟨hp, fun e => (hp.inward_iff.mp hh).ne e.symm⟩
    by_cases hhole : l.head? = some p
    · rw [if_pos hhole]
      refine pass l.tail (.inl (hiff.mp hhole)) ⟨hd.sorted.sublist (tail_sublist l),
        fun x hx => hd.sub x (mem_of_mem_tail hx), fun x hx hh => ?_⟩
      obtain ⟨hp, hne⟩ := hin x hh
      have hxl := hd.cover x hx hp
      cases l with
      | nil => cases hxl
      | cons y l =>
        cases hhole
        exact (mem_cons.mp hxl).resolve_left hne
    · rw [if_neg hhole]
      have hnot : p ∉ all := fun hm => hhole (hiff.mpr hm)
      have hcur : Cursor c all (c.inward p) l :=
        ⟨hd.sorted, hd.sub, fun x hx hh => hd.cover x hx (hin x hh).1⟩
      by_cases hpen : p ∈ pending
      · rw [if_pos hpen]
        exact pass l (.inr hpen) hcur
      · rw [if_neg hpen]
        refine ⟨fun _ h => absurd (congrArg fst h) (by simp), fun src holes' h => ?_⟩
        cases h
        exact ⟨hself, hnot, hpen, fun q hq ho => absurd ho hq.not_outer, hcur⟩

/-! ### The walk -/

/-- Where `_topmost_survivor` starts. -/
def startPage (c : AllocConfig) (s : MultiEndedAllocator) : Option Nat → Nat
  | none => c.edge s.watermark
  | some h => if c.Outer h (c.edge s.watermark) then c.edge s.watermark else h

theorem startPage_none (s : MultiEndedAllocator) : startPage c s none = c.edge s.watermark := rfl

theorem topmostSurvivor_eq (cursor : Option Nat) (holes : List Nat) :
    s.topmostSurvivor c cursor holes =
      survivorFrom c s.pendingReusePagesCpu (c.pagesFrom (startPage c s cursor))
        (startPage c s cursor) holes := by
  cases cursor <;> rfl

/-- The moves of a walk from page `p` with the destinations `dsts` to choose from. -/
structure Walked (c : AllocConfig) (all : List Nat) (pending : Finset Nat) (p : Nat)
    (dsts : List Nat) (moves : List (Nat × Nat)) : Prop where
  dsts_eq : moves.map snd = dsts.take moves.length
  live : ∀ src ∈ moves.map fst, c.InFrom p src ∧ src ∉ all ∧ src ∉ pending
  sorted : (moves.map fst).Pairwise c.Outer
  outer : ∀ src ∈ moves.map fst, ∀ dst ∈ moves.map snd, c.Outer src dst

theorem Walked.nil : Walked c all pending p dsts [] :=
  ⟨rfl, by simp, by simp, by simp⟩

/-- One more move in front: its source is the topmost, its destination the innermost. -/
theorem Walked.cons {src dst : Nat}
    {moves : List (Nat × Nat)} (hw : Walked c all pending (c.inward src) dsts moves)
    (hsrc : c.InFrom p src ∧ src ∉ all ∧ src ∉ pending)
    (hd : ∀ d ∈ dsts, c.Outer d dst) (ho : c.Outer src dst) :
    Walked c all pending p (dst :: dsts) ((src, dst) :: moves) := by
  have hself : ∀ x, c.InFrom (c.inward src) x → c.Outer src x ∧ c.InFrom p x :=
    fun x hx => hsrc.1.of_inward hx
  refine ⟨?_, ?_, ?_, ?_⟩
  · simp only [map_cons, length_cons, take_succ_cons, hw.dsts_eq]
  · intro x hx
    rcases mem_cons.mp hx with rfl | hx
    · exact hsrc
    · exact ⟨(hself x (hw.live x hx).1).2, (hw.live x hx).2⟩
  · refine pairwise_cons.mpr ⟨fun x hx => (hself x (hw.live x hx).1).1, hw.sorted⟩
  · have hlater : ∀ d ∈ moves.map snd, c.Outer d dst := by
      intro d hd'
      rw [hw.dsts_eq] at hd'
      exact hd d (mem_of_mem_take hd')
    intro x hx d hd'
    rcases mem_cons.mp hd' with rfl | hmd
    · rcases mem_cons.mp hx with rfl | hmx
      · exact ho
      · -- a later source lies beyond its own destination, which lies beyond this one
        obtain ⟨⟨x', d'⟩, hm, rfl⟩ := mem_map.mp hmx
        have hmd : d' ∈ moves.map snd := mem_map.mpr ⟨_, hm, rfl⟩
        exact (hw.outer x' hmx d' hmd).trans (hlater d' hmd)
    · rcases mem_cons.mp hx with rfl | hmx
      · obtain ⟨⟨x', d'⟩, hm, rfl⟩ := mem_map.mp hmd
        have hmx : x' ∈ moves.map fst := mem_map.mpr ⟨_, hm, rfl⟩
        exact (hself x' (hw.live x' hmx).1).1.trans (hw.outer x' hmx d' hmd)
      · exact hw.outer x hmx d hmd

section

variable (hp : startPage c s cursor = p)
include hp

/-- **The walk of `_flush`.** -/
theorem walk_walked (he : ¬ c.Outer p (c.edge s.watermark))
    (hc : Cursor c all p holes) (hd : dsts.Pairwise fun a b => c.Outer b a)
    (hsub : ∀ d ∈ dsts, d ∈ all) :
    Walked c all s.pendingReusePagesCpu p dsts (s.walk c writeSet moveCap dsts cursor holes n) := by
  induction dsts generalizing cursor holes p n with
  | nil => exact .nil
  | cons dst dsts ih =>
    obtain ⟨hdst, hd⟩ := pairwise_cons.mp hd
    simp only [walk]
    obtain ⟨-, hsome⟩ := survivorFrom_spec s.pendingReusePagesCpu rfl hc
    rw [topmostSurvivor_eq, hp]
    rcases hr : survivorFrom c s.pendingReusePagesCpu (c.pagesFrom p) p holes with ⟨r, holes'⟩
    cases r with
    | none => exact .nil
    | some src =>
      obtain ⟨hin, hall, hpen, -, hcur⟩ := hsome src holes' hr
      simp only
      split_ifs with h₁ h₂ h₃
      · exact .nil
      · exact .nil
      all_goals
        have ho : c.Outer src dst := by
          rcases c.outer_trichotomy src dst with h | h | h
          · exact h
          · exact absurd (h ▸ hsub dst mem_cons_self) hall
          · exact absurd h h₂
        have hout := hin.inward_not_outer he
      · exact Walked.cons .nil ⟨hin, hall, hpen⟩ hdst ho
      · refine Walked.cons (ih ?_ hout hcur hd fun d hd => hsub d (mem_cons_of_mem _ hd))
          ⟨hin, hall, hpen⟩ hdst ho
        simp only [startPage, if_neg hout]

/-- A walk that nothing stops early leaves every survivor inwards of every source and of every hole
that it has not filled. -/
theorem walk_packs (he : ¬ c.Outer p (c.edge s.watermark))
    (hc : Cursor c all p holes) (hd : dsts.Pairwise fun a b => c.Outer b a) {q : Nat}
    (hq : c.InFrom p q) (hall : q ∉ all) (hpen : q ∉ s.pendingReusePagesCpu)
    (hnot : q ∉ (s.walk c [] none dsts cursor holes n).map fst) :
    (∀ src ∈ (s.walk c [] none dsts cursor holes n).map fst, c.Outer src q) ∧
      ∀ d ∈ dsts.drop (s.walk c [] none dsts cursor holes n).length, c.Outer d q := by
  induction dsts generalizing cursor holes p n with
  | nil => simp [walk]
  | cons dst dsts ih =>
    obtain ⟨hdst, hd⟩ := pairwise_cons.mp hd
    revert hnot
    simp only [walk]
    obtain ⟨hnone, hsome⟩ := survivorFrom_spec s.pendingReusePagesCpu rfl hc
    rw [topmostSurvivor_eq, hp]
    rcases hr : survivorFrom c s.pendingReusePagesCpu (c.pagesFrom p) p holes with ⟨r, holes'⟩
    cases r with
    | none =>
      intro _
      exact absurd (hnone holes' hr q hq) (by tauto)
    | some src =>
      obtain ⟨hin, -, -, htop, hcur⟩ := hsome src holes' hr
      -- the survivor is the source itself or lies inwards of it
      have hcase : q = src ∨ c.Outer src q := by
        rcases c.outer_trichotomy q src with h | h | h
        · exact absurd (htop q hq h) (by tauto)
        · exact .inl h
        · exact .inr h
      simp only [not_mem_nil, if_false, Option.any_none, Bool.false_eq_true]
      split_ifs with hcross
      · intro _
        have hdq : c.Outer dst q := by
          rcases hcase with rfl | h
          · exact hcross
          · exact hcross.trans h
        refine ⟨by simp, fun d hd' => ?_⟩
        rcases mem_cons.mp hd' with rfl | hd'
        · exact hdq
        · exact (hdst d hd').trans hdq
      · intro hnot
        rw [map_cons, mem_cons, not_or] at hnot
        have hsq := hcase.resolve_left hnot.1
        have hinq : c.InFrom (c.inward src) q := by
          obtain ⟨hps, hsq'⟩ := hq.of_outer hsq hin.not_outer
          exact hsq'.inward_iff.mpr hsq
        have hout := hin.inward_not_outer he
        have hstart : startPage c s (some (c.inward src)) = c.inward src := by
          simp only [startPage, if_neg hout]
        obtain ⟨h₁, h₂⟩ := ih hstart hout hcur hd hinq hnot.2
        refine ⟨fun x hx => ?_, by simpa using h₂⟩
        rcases mem_cons.mp hx with rfl | hx
        · exact hsq
        · exact h₁ x hx

/-- The first move of a walk. -/
theorem walk_head (hc : Cursor c all p holes) (hsub : ∀ d ∈ dsts, d ∈ all)
    (hne : s.walk c writeSet moveCap dsts cursor holes n ≠ []) :
    ∃ src, ∃ dst ∈ all, c.InFrom p src ∧ src ∉ all ∧ src ∉ s.pendingReusePagesCpu ∧
      src ∉ writeSet ∧ c.Outer src dst ∧
      ∀ q, c.InFrom p q → c.Outer q src → q ∈ all ∨ q ∈ s.pendingReusePagesCpu := by
  cases dsts with
  | nil => exact absurd rfl hne
  | cons dst dsts =>
    revert hne
    simp only [walk]
    obtain ⟨-, hsome⟩ := survivorFrom_spec s.pendingReusePagesCpu rfl hc
    rw [topmostSurvivor_eq, hp]
    rcases hr : survivorFrom c s.pendingReusePagesCpu (c.pagesFrom p) p holes with ⟨r, holes'⟩
    cases r with
    | none => exact fun h => absurd rfl h
    | some src =>
      obtain ⟨hin, hall, hpen, htop, -⟩ := hsome src holes' hr
      simp only
      split_ifs with h₁ h₂
      · exact fun h => absurd rfl h
      · exact fun h => absurd rfl h
      all_goals
        intro _
        have hdall := hsub dst mem_cons_self
        refine ⟨src, dst, hdall, hin, hall, hpen, h₁, ?_, htop⟩
        rcases c.outer_trichotomy src dst with h | h | h
        · exact h
        · exact absurd (h ▸ hdall) hall
        · exact absurd h h₂

/-! ### Draining, sorting and absorbing -/

end

theorem mergeSorted_perm (c : AllocConfig) (l : List Nat) : (mergeSorted c l).Perm l := by
  unfold mergeSorted
  split_ifs
  · exact perm_insertionSort _ l
  · exact .refl _

/-- The invariant depends on the order of neither list. -/
theorem Inv.setFree (h : Inv c s) (hp : l.Perm s.freePhysPages) :
    Inv c { s with freePhysPages := l } := by
  have hp' : (l ++ s.pendingPages).Perm (s.freePhysPages ++ s.pendingPages) := hp.append_right _
  exact ⟨h.classes.perm hp'.symm, h.inverse, hp'.length_eq ▸ h.count, h.mirror, h.keys,
    fun ho => ⟨(h.ids ho).nodup, (h.ids ho).mem_iff, (h.ids ho).bound, (h.ids ho).count⟩⟩

/-- Fired entries return to the free list; an urgent drain returns them all. -/
theorem Inv.drainPendingReuse (h : Inv c s) (fired : Event → Bool) (urgent : Bool) :
    Inv c (s.drainPendingReuse c fired urgent) := by
  unfold MultiEndedAllocator.drainPendingReuse
  simp only
  generalize hf : (fun e : Event × List Nat => fired e.1 || urgent) = f
  have hneg : (fun e : Event × List Nat => !(fired e.1 || urgent)) = fun e => !f e := by
    rw [← hf]
  rw [hneg]
  split_ifs with hready
  · exact h
  have hsplit : s.pendingPages.Perm ((s.pendingReuse.filter f).flatMap snd ++
      (s.pendingReuse.filter fun e => !f e).flatMap snd) := by
    rw [← flatMap_append]
    exact (filter_append_perm f s.pendingReuse).symm.flatMap_right _
  have hall : (s.freePhysPages ++ s.pendingPages).Perm
      (mergeSorted c (s.freePhysPages ++ (s.pendingReuse.filter f).flatMap snd) ++
        (s.pendingReuse.filter fun e => !f e).flatMap snd) := by
    refine (hsplit.append_left _).trans ?_
    rw [← append_assoc]
    exact (mergeSorted_perm c _).symm.append_right _
  have hnd : s.pendingPages.Nodup := (nodup_append.mp h.classes.nodup).2.1
  have hdis := (nodup_append.mp (hsplit.nodup_iff.mp hnd)).2.2
  refine ⟨h.classes.perm hall, h.inverse, ?_, fun p => ?_, ?_, fun ho =>
    ⟨(h.ids ho).nodup, (h.ids ho).mem_iff, (h.ids ho).bound, (h.ids ho).count⟩⟩
  · exact hall.length_eq ▸ h.count
  · simp only [pendingPages] at hsplit hdis ⊢
    rw [Finset.mem_sdiff, h.mirror, pendingPages, hsplit.mem_iff, mem_toFinset,
      mem_append]
    constructor
    · rintro ⟨hp | hp, hn⟩
      · exact absurd hp hn
      · exact hp
    · intro hp
      exact ⟨.inr hp, fun hn => hdis p hn p hp rfl⟩
  · exact h.keys.sublist (filter_sublist.map _)

theorem absorbFrom_spec {wm : Nat} {g : Nat → Option Nat} {hs rest : List Nat}
    (h : Classes c wm g (hs ++ rest)) :
    Classes c (absorbFrom c wm hs).1 g ((absorbFrom c wm hs).2 ++ rest) ∧
      (absorbFrom c wm hs).2 <:+ hs ∧
      c.allocatedPages (absorbFrom c wm hs).1 + hs.length =
        c.allocatedPages wm + (absorbFrom c wm hs).2.length := by
  induction hs generalizing wm with
  | nil => exact ⟨h, suffix_rfl, rfl⟩
  | cons x hs ih =>
    simp only [absorbFrom]
    split_ifs with hx
    · subst hx
      obtain ⟨h₁, h₂, h₃⟩ := ih h.absorb
      refine ⟨h₁, h₂.trans (suffix_cons _ _), ?_⟩
      have hpos := allocatedPages_pos h.ok
        ((h.mem_iff (c.edge wm)).mp mem_cons_self).1
      rw [c.allocatedPages_retreat] at h₃
      rw [length_cons]
      omega
    · exact ⟨h, suffix_rfl, rfl⟩

theorem outward_sublist {l' : List Nat} (h : l.Sublist l') :
    (c.outward l).Sublist (c.outward l') := by
  unfold outward
  cases c.growDirection with
  | up => exact h
  | down => exact h.reverse

theorem Inv.absorbBoundaryHoles (h : Inv c s) : Inv c (absorbBoundaryHoles c s) ∧
      (MultiEndedAllocator.absorbBoundaryHoles c s).freePhysPages.Sublist s.freePhysPages := by
  have hperm : s.freePhysPages.Perm (c.outward s.freePhysPages).reverse :=
    ((reverse_perm _).trans (c.outward_perm _)).symm
  obtain ⟨h₁, h₂, h₃⟩ := absorbFrom_spec (h.classes.perm (hperm.append_right _))
  set r := absorbFrom c s.watermark (c.outward s.freePhysPages).reverse with hr
  have hfree : (c.outward r.2.reverse).Perm r.2 :=
    (c.outward_perm _).trans (reverse_perm _)
  have hsub : (c.outward r.2.reverse).Sublist s.freePhysPages := by
    have := outward_sublist (c := c) h₂.sublist.reverse
    rwa [reverse_reverse, c.outward_outward] at this
  refine ⟨⟨h₁.perm (hfree.symm.append_right _), h.inverse, ?_, h.mirror, h.keys, fun ho =>
    ⟨(h.ids ho).nodup, (h.ids ho).mem_iff, (h.ids ho).bound, (h.ids ho).count⟩⟩, hsub⟩
  have hcount := h.count
  have hlen := hperm.length_eq
  have hlen' := hfree.length_eq
  simp only [MultiEndedAllocator.absorbBoundaryHoles, ← hr, pendingPages, length_append] at *
  omega

/-- The state from which the walk starts. -/
theorem Inv.prepareFlush (h : Inv c s) (timing : Timing) (urgent : Bool) :
    Inv c (s.prepareFlush c timing urgent) ∧
      (s.prepareFlush c timing urgent).freePhysPages.Pairwise (· < ·) := by
  have hd := h.drainPendingReuse timing.firedAtDrain urgent
  set s₁ := s.drainPendingReuse c timing.firedAtDrain urgent with hs₁
  have hp : (s₁.freePhysPages.insertionSort (· ≤ ·)).Perm s₁.freePhysPages :=
    perm_insertionSort _ _
  obtain ⟨hinv, hsub⟩ := (hd.setFree hp).absorbBoundaryHoles
  refine ⟨hinv, List.Pairwise.sublist hsub ?_⟩
  have hnd : (s₁.freePhysPages.insertionSort (· ≤ ·)).Nodup :=
    hp.nodup_iff.mpr (nodup_append.mp hd.classes.nodup).1
  have hsorted := pairwise_insertionSort (· ≤ ·) s₁.freePhysPages
  exact (hsorted.and hnd).imp fun ⟨hle, hne⟩ => lt_of_le_of_ne hle hne

/-! ### Committing the moves -/

theorem Ids.remap (h : Ids c s) (hinv : MutuallyInverse s.virtualToPhysical s.physicalToVirtual)
    {srcs vs : List Nat} (hnd : srcs.Nodup) (hg : gather s.physicalToVirtual srcs = some vs)
    (hlen : srcs.length = dsts.length) : Ids c (s.remap srcs dsts vs) := by
  have hvs : vs.Nodup := hinv.symm.nodup_gather hnd hg
  have hlen' : vs.length = dsts.length := (length_of_gather hg).symm.trans hlen
  have hbound : ∀ v ∈ vs, s.virtualToPhysical v ≠ none := by
    intro v hv
    obtain ⟨p, -, e⟩ := exists_of_mem_gather hg hv
    rw [(hinv v p).mpr e]
    simp
  -- a moved id stays bound, every other id keeps its page
  have hnone : ∀ v, scatter s.virtualToPhysical vs dsts v = none ↔ s.virtualToPhysical v = none := by
    intro v
    by_cases hv : v ∈ vs
    · obtain ⟨p, hz⟩ := exists_mem_zip hlen' hv
      rw [(scatter_eq_some_iff hvs hlen').mpr (.inl hz)]
      exact iff_of_false (by simp) (hbound v hv)
    · rw [scatter_of_notMem hv]
  refine ⟨h.nodup, fun v => ?_, fun v p hv => ?_, h.count⟩
  · have := h.mem_iff v
    simp only [MultiEndedAllocator.remap, hnone]
    exact this
  · have hne : s.virtualToPhysical v ≠ none := by
      intro e
      exact absurd (((hnone v).mpr e).symm.trans hv) (by simp)
    obtain ⟨p', e⟩ := Option.ne_none_iff_exists'.mp hne
    exact h.bound v p' e

/-- A commit moves bindings into holes and leaves the sources unbound. -/
theorem Inv.remap (h : Inv c s) {srcs rest : List Nat} (hs : srcs.Nodup)
    (hsrc : ∀ p ∈ srcs, c.InBand s.watermark p ∧ p ∉ s.freePhysPages ∧ p ∉ s.pendingPages)
    (hd : s.freePhysPages.Perm (dsts ++ rest)) (hlen : srcs.length = dsts.length) :
    ∃ vs, gather s.physicalToVirtual srcs = some vs ∧
      Classes c s.watermark (s.remap srcs dsts vs).physicalToVirtual
        (rest ++ s.pendingPages ++ srcs) ∧
      MutuallyInverse (s.remap srcs dsts vs).virtualToPhysical
        (s.remap srcs dsts vs).physicalToVirtual ∧
      (c.isIdOwner → Ids c (s.remap srcs dsts vs)) := by
  have hlive : ∀ p ∈ srcs, p ≠ 0 ∧ s.physicalToVirtual p ≠ none := by
    intro p hp
    obtain ⟨hb, hf, hn⟩ := hsrc p hp
    refine ⟨h.classes.ne_zero hb, fun e => ?_⟩
    rcases mem_append.mp ((h.classes.mem_iff p).mpr ⟨hb, e⟩) with h' | h'
    · exact hf h'
    · exact hn h'
  obtain ⟨vs, hg⟩ := exists_gather fun p hp => (hlive p hp).2
  have hclass : Classes c s.watermark s.physicalToVirtual (dsts ++ (rest ++ s.pendingPages)) := by
    rw [← append_assoc]
    exact h.classes.perm (hd.append_right _)
  have hlen' : dsts.length = vs.length := hlen.symm.trans (length_of_gather hg)
  refine ⟨vs, hg, hclass.move hs hlive hlen', ?_, fun ho => (h.ids ho).remap h.inverse hs hg hlen⟩
  refine h.inverse.move hs (nodup_append.mp hclass.nodup).1 hg hlen fun p hp => ?_
  exact ((hclass.mem_iff p).mp (mem_append_left _ hp)).2

/-! ### The two exits -/

theorem setPending_of_notMem {e : Event} (pages : List Nat) {d : List (Event × List Nat)}
    (h : e ∉ d.map fst) : setPending e pages d = d ++ [(e, pages)] := by
  induction d with
  | nil => rfl
  | cons x d ih =>
    rw [map_cons, mem_cons, not_or] at h
    rw [setPending, if_neg (Ne.symm h.1), ih h.2, cons_append]

section Exits

variable {moves : List (Nat × Nat)} {fired : Event → Bool}

/-- The moves fill the innermost holes, from live pages of the band. -/
theorem Inv.commit (h : Inv c s)
    (hw : Walked c s.freePhysPages s.pendingReusePagesCpu (c.edge s.watermark)
      (c.outward s.freePhysPages) moves) :
    ∃ vs, gather s.physicalToVirtual (moves.map fst) = some vs ∧
      Classes c s.watermark (s.remap (moves.map fst) (moves.map snd) vs).physicalToVirtual
        ((c.outward s.freePhysPages).drop moves.length ++ s.pendingPages ++ moves.map fst) ∧
      MutuallyInverse (s.remap (moves.map fst) (moves.map snd) vs).virtualToPhysical
        (s.remap (moves.map fst) (moves.map snd) vs).physicalToVirtual ∧
      (c.isIdOwner → Ids c (s.remap (moves.map fst) (moves.map snd) vs)) ∧
      ((c.outward s.freePhysPages).drop moves.length).length + moves.length =
        s.freePhysPages.length := by
  have hnd : (moves.map fst).Nodup := hw.sorted.imp fun ho => ho.ne
  have hperm : s.freePhysPages.Perm
      (moves.map snd ++ (c.outward s.freePhysPages).drop moves.length) := by
    rw [hw.dsts_eq, take_append_drop]
    exact (c.outward_perm _).symm
  have hlive : ∀ p ∈ moves.map fst,
      c.InBand s.watermark p ∧ p ∉ s.freePhysPages ∧ p ∉ s.pendingPages := by
    intro p hp
    obtain ⟨hin, hf, hn⟩ := hw.live p hp
    exact ⟨(inFrom_edge h.classes.ok).mp hin, hf, fun hm => hn ((h.mirror p).mpr hm)⟩
  obtain ⟨vs, hg, hclass, hinv, hids⟩ := h.remap hnd hlive hperm
    (by rw [length_map, length_map])
  refine ⟨vs, hg, hclass, hinv, hids, ?_⟩
  have := hperm.length_eq
  rw [length_append, length_map] at this
  omega

/-- With no event to wait for, every source may be reused at once. -/
theorem commitMoveBatch_none {vs : List Nat}
    (hg : gather s.physicalToVirtual (moves.map fst) = some vs) :
    s.commitMoveBatch moves none fired =
      some (s.remap (moves.map fst) (moves.map snd) vs, moves.map fst) := by
  simp only [commitMoveBatch]
  split_ifs with hm
  · subst hm
    cases hg
    have hwipe : wipe s.physicalToVirtual [] = s.physicalToVirtual := funext fun p => by simp [wipe]
    simp [MultiEndedAllocator.remap, scatter, hwipe]
  · rw [hg]
    rfl

/-- **A partial pass** keeps the invariant, unless it would replace a pending entry. -/
theorem Inv.partialPass (h : Inv c s) {latest : Option Event}
    (hw : Walked c s.freePhysPages s.pendingReusePagesCpu (c.edge s.watermark)
      (c.outward s.freePhysPages) moves)
    (hnew : moves ≠ [] → ∀ e, latest = some e → fired e = false →
      e ∉ s.pendingReuse.map fst) :
    ∃ s₁ released, s.commitMoveBatch moves latest fired = some (s₁, released) ∧
      Inv c (s₁.partialPack c moves.length released) := by
  by_cases hm : moves = []
  · subst hm
    refine ⟨s, [], rfl, ?_⟩
    have hfree : c.outward ((c.outward s.freePhysPages).drop 0) = s.freePhysPages := by simp
    simp only [partialPack, length_nil, hfree, if_true]
    exact h
  obtain ⟨vs, hg, hclass, hinv, hids, hlen⟩ := h.commit hw
  have hout : (c.outward ((c.outward s.freePhysPages).drop moves.length)).Perm
      ((c.outward s.freePhysPages).drop moves.length) := c.outward_perm _
  have hcount := h.count
  simp only [commitMoveBatch, hm, if_false, hg, Option.map_some]
  have hsne : moves.map fst ≠ [] := fun e => hm (map_eq_nil_iff.mp e)
  rcases hl : latest.filter (fun e => !fired e) with - | e
  · -- the sources join the free list
    refine ⟨_, _, rfl, ?_, hinv, ?_, h.mirror, h.keys, fun ho =>
      ⟨(hids ho).nodup, (hids ho).mem_iff, (hids ho).bound, (hids ho).count⟩⟩
    · refine hclass.perm ?_
      simp only [partialPack, hsne, if_false, pendingPages, MultiEndedAllocator.remap]
      refine List.Perm.trans ?_ ((mergeSorted_perm c _).symm.append_right _)
      rw [append_assoc, append_assoc]
      exact hout.symm.append perm_append_comm
    · have hp := (mergeSorted_perm c (c.outward ((c.outward s.freePhysPages).drop moves.length) ++
        moves.map fst)).length_eq
      simp only [partialPack, hsne, if_false, pendingPages, MultiEndedAllocator.remap,
        length_append, hp, hout.length_eq, length_map] at hcount ⊢
      omega
  · -- the sources wait for the event, which has no entry yet
    obtain ⟨hlat, hfire⟩ := Option.filter_eq_some_iff.mp hl
    have hkey := hnew hm e hlat (by simpa using hfire)
    have hset := setPending_of_notMem (moves.map fst) hkey
    refine ⟨_, _, rfl, ?_, hinv, ?_, fun p => ?_, ?_, fun ho =>
      ⟨(hids ho).nodup, (hids ho).mem_iff, (hids ho).bound, (hids ho).count⟩⟩
    · refine hclass.perm ?_
      simp only [partialPack, if_true, pendingPages, MultiEndedAllocator.remap, hset,
        flatMap_append, flatMap_cons, flatMap_nil, append_nil]
      rw [append_assoc]
      exact hout.symm.append_right _
    · simp only [partialPack, if_true, pendingPages, MultiEndedAllocator.remap, hset,
        flatMap_append, flatMap_cons, flatMap_nil, append_nil,
        length_append, hout.length_eq, length_map] at hcount ⊢
      omega
    · simp only [partialPack, pendingPages, MultiEndedAllocator.remap, hset, flatMap_append,
        flatMap_cons, flatMap_nil, append_nil, Finset.mem_union, mem_append,
        mem_toFinset]
      exact or_congr (h.mirror p) Iff.rfl
    · simp only [partialPack, MultiEndedAllocator.remap, hset, map_append, map_cons,
        map_nil]
      exact nodup_append.mpr ⟨h.keys, by simp, fun x hx y hy e' => hkey (by
        rw [mem_singleton.mp hy] at e'
        exact e' ▸ hx)⟩

/-- The cursor with which a walk starts. -/
theorem cursor_start (hsorted : s.freePhysPages.Pairwise (· < ·)) :
    Cursor c s.freePhysPages (c.edge s.watermark) (c.outward s.freePhysPages).reverse :=
  ⟨pairwise_reverse.mpr (pairwise_outward hsorted),
    fun x hx => by simpa using hx, fun x hx _ => by simpa using hx⟩

theorem walk_outward (hsorted : s.freePhysPages.Pairwise (· < ·)) (writeSet : List Nat)
    (moveCap : Option Nat) :
    Walked c s.freePhysPages s.pendingReusePagesCpu (c.edge s.watermark)
      (c.outward s.freePhysPages) (s.walk c writeSet moveCap (c.outward s.freePhysPages) none
        (c.outward s.freePhysPages).reverse 0) :=
  walk_walked (startPage_none s) (c.outer_irrefl _) (cursor_start hsorted)
    (pairwise_outward hsorted) fun _ hd => mem_outward.mp hd

/-- **An urgent pass** packs the band. -/
theorem Inv.urgentPass (h : Inv c s) (hpend : s.pendingReuse = [])
    (hsorted : s.freePhysPages.Pairwise (· < ·))
    (hm : moves = s.walk c [] none (c.outward s.freePhysPages) none
      (c.outward s.freePhysPages).reverse 0) :
    ∃ s₁ released, s.commitMoveBatch moves none fired = some (s₁, released) ∧
      Inv c (s₁.fullPack c s.freePhysPages.length) := by
  have hdsts := pairwise_outward (c := c) hsorted
  have hcur := cursor_start (c := c) hsorted
  have hedge := c.outer_irrefl (c.edge s.watermark)
  have hw := hm ▸ walk_outward (c := c) hsorted [] none
  obtain ⟨vs, hg, hclass, hinv, hids, hlen⟩ := h.commit hw
  have hP : s.pendingPages = [] := by rw [pendingPages, hpend]; rfl
  rw [hP, append_nil] at hclass
  have hpen : ∀ q, q ∉ s.pendingReusePagesCpu := fun q hq => by
    have := (h.mirror q).mp hq
    rw [hP] at this
    cases this
  have hsize : ((c.outward s.freePhysPages).drop moves.length ++ moves.map fst).length =
      s.freePhysPages.length := by
    rw [length_append, length_map]
    exact hlen
  -- what is left unbound lies beyond what is bound
  have hpack := hclass.pack fun p hp q hq hbound => by
    have hcase : q ∈ moves.map snd ∨
        q ∉ moves.map snd ∧ q ∉ moves.map fst ∧ q ∉ s.freePhysPages := by
      by_cases hd : q ∈ moves.map snd
      · exact .inl hd
      refine .inr ⟨hd, fun hf => hbound ?_, fun hf => hbound ?_⟩
      · simp [MultiEndedAllocator.remap, wipe, hf]
      · refine ((hclass.mem_iff q).mp (mem_append_left _ ?_)).2
        rw [← mem_outward (c := c), ← take_append_drop moves.length
          (c.outward s.freePhysPages), mem_append, ← hw.dsts_eq] at hf
        exact hf.resolve_left hd
    rcases hcase with hd | ⟨-, hf, hfree⟩
    · rcases mem_append.mp hp with hp | hp
      · rw [hw.dsts_eq] at hd
        have hsplit := take_append_drop moves.length (c.outward s.freePhysPages)
        rw [← hsplit] at hdsts
        exact (pairwise_append.mp hdsts).2.2 q hd p hp
      · exact hw.outer p hp q hd
    · have hin := (inFrom_edge h.classes.ok).mpr hq
      rw [hm] at hf hp
      obtain ⟨h₁, h₂⟩ := walk_packs (startPage_none s) hedge hcur hdsts hin hfree (hpen q) hf
      rcases mem_append.mp hp with hp | hp
      · exact h₂ p hp
      · exact h₁ p hp
  rw [hsize] at hpack
  have hle := hclass.length_le
  have hcount := h.count
  refine ⟨_, _, commitMoveBatch_none hg, ?_, hinv, ?_, fun p => ?_, h.keys, fun ho =>
    ⟨(hids ho).nodup, (hids ho).mem_iff, (hids ho).bound, (hids ho).count⟩⟩
  · simpa [fullPack, pendingPages, hpend, MultiEndedAllocator.remap] using hpack
  · simp only [fullPack, pendingPages, hpend, c.allocatedPages_retreat, flatMap_nil,
      MultiEndedAllocator.remap, append_nil, length_nil] at hcount ⊢
    omega
  · exact h.mirror p

end Exits

end MultiEndedAllocator

end SglangRuntime.MultiEnded
