import Mathlib.Data.List.Nodup
import Mathlib.Logic.Function.Basic
import Mathlib.Logic.Relation
import Mathlib.Order.Nat

/-!
# The branching session tree

`SessionReqNode` and the part of `Session.create_req` that keeps the tree of a session without
streaming.  A node is named by the id of its request; the dictionary `req_nodes` is the list of
its keys, oldest first.  What raises is `none`: `del` of a missing key, and an iteration over the
dictionary that finds its size changed.

A replace without an id clears nodes while it iterates, so it raises unless the session is empty;
every other call keeps the forest (`createReq_consistent`).
-/

namespace SglangRuntime.SessionController

open Relation Function Option List

/-- The fields of `session_params` that choose the node to continue. -/
structure SessionParams (Rid : Type) where
  rid : Option Rid
  replace : Bool

/-- `req_nodes`, with the attributes of the nodes and of their requests: `finished` is
`finished_reason is not None`, `toFinish` an abort in `to_finish`. -/
structure Session (Rid : Type) where
  reqNodes : List Rid := []
  parent : Rid → Option Rid := fun _ => none
  children : Rid → List Rid := fun _ => []
  finished : Rid → Bool := fun _ => false
  toFinish : Rid → Bool := fun _ => false

variable {Rid : Type} {s s' s₀ : Session Rid} {r rid x : Rid}

namespace Session

section

variable [DecidableEq Rid] (s : Session Rid)

def abort (r : Rid) : Session Rid :=
  if s.finished r then s else { s with toFinish := update s.toFinish r true }

theorem abort_eq (r : Rid) : s.abort r =
    { s with toFinish := update s.toFinish r (s.toFinish r || !s.finished r) } := by
  cases h : s.finished r <;> simp [abort, h]

/-- `del req_dict[rid]`. -/
def del (r : Rid) : Option (Session Rid) :=
  if r ∈ s.reqNodes then some { s with reqNodes := s.reqNodes.erase r } else none

/-- `SessionReqNode.clear`; the fuel bounds the depth of the tree. -/
def clear : Nat → Session Rid → Rid → Option (Session Rid)
  | 0, _, _ => none
  | fuel + 1, s, r => do
    let s ← (s.children r).foldlM (clear fuel) s
    (s.abort r).del r

def clearChildren (r : Rid) : Option (Session Rid) := do
  let s ← (s.children r).foldlM (clear s.reqNodes.length) s
  some { s with children := update s.children r [] }

/-- `for _, req_node in self.req_nodes.items(): req_node.clear(self.req_nodes)`.  The iterator
compares the size of the dictionary with the one it started from before each entry. -/
def clearItems (size : Nat) : Nat → Session Rid → Option (Session Rid)
  | left, s =>
    if s.reqNodes.length ≠ size then none else
    match left, s.reqNodes[size - left]? with
    | left + 1, some r => do clearItems size left (← clear size s r)
    | _, _ => some s

/-- `SessionReqNode(new_req, last_req_node)`, entered in `req_nodes`. -/
def addNode (rid : Rid) (parent : Option Rid) : Session Rid where
  reqNodes := s.reqNodes ++ [rid]
  parent := update s.parent rid parent
  children := update
    (fun p => if parent = some p then s.children p ++ [rid] else s.children p) rid []
  finished := update s.finished rid false
  toFinish := update s.toFinish rid false

/-- `new_req.set_finish_with_abort`: the request gets no node. -/
def reject (rid : Rid) : Session Rid :=
  { s with
    finished := update s.finished rid false
    toFinish := update s.toFinish rid true }

def createReq (rid : Rid) (p : SessionParams Rid) : Option (Session Rid) :=
  match p.replace, p.rid with
  | true, none => (clearItems s.reqNodes.length s.reqNodes.length s).map (·.addNode rid none)
  | true, some r =>
    if r ∈ s.reqNodes then ((s.abort r).clearChildren r).map (·.addNode rid (some r))
    else some (s.reject rid)
  | false, none => some (s.addNode rid none)
  | false, some r =>
    -- a request that is not known, or has not finished, cannot be appended to
    if r ∈ s.reqNodes ∧ s.finished r then some (s.addNode rid (some r)) else some (s.reject rid)

end

section

variable (s : Session Rid)

/-- `x` is `r` or a descendant of `r`. -/
abbrev Below : Rid → Rid → Prop := ReflTransGen fun p c => c ∈ s.children p

/-- `x` is a descendant of `r`. -/
abbrev Under (r x : Rid) : Prop := ∃ c ∈ s.children r, s.Below c x

/-- The call replaces the request `r` of the session. -/
def Replaces (p : SessionParams Rid) (r : Rid) : Prop :=
  p.replace ∧ p.rid = some r ∧ r ∈ s.reqNodes

end

theorem below_iff : s.Below r x ↔ r = x ∨ s.Under r x := ReflTransGen.cases_head_iff

/-- The dictionary holds a forest, every node after its parent. -/
structure Forest (s : Session Rid) : Prop where
  nodup : s.reqNodes.Nodup
  order : s.reqNodes.Pairwise fun a b => s.parent a ≠ some b
  children_nodup : ∀ p ∈ s.reqNodes, (s.children p).Nodup
  child : ∀ p ∈ s.reqNodes, ∀ c ∈ s.children p, c ∈ s.reqNodes ∧ s.parent c = some p
  listed : ∀ x ∈ s.reqNodes, ∀ p, s.parent x = some p →
    p ∈ s.reqNodes ∧ p ≠ x ∧ x ∈ s.children p

/-- The nodes of `P` leave the dictionary, and the unfinished ones among them are aborted. -/
structure Cleared (s s' : Session Rid) (P : Rid → Prop) : Prop where
  parent : s'.parent = s.parent
  children : s'.children = s.children
  finished : s'.finished = s.finished
  sublist : s'.reqNodes.Sublist s.reqNodes
  mem : ∀ x, x ∈ s'.reqNodes ↔ x ∈ s.reqNodes ∧ ¬ P x
  mark : ∀ x, s'.toFinish x ↔ s.toFinish x ∨ P x ∧ ¬ s.finished x

/-- `f` clears the nodes of `P`, in every dictionary over the tree of `s₀` that has them. -/
def Clears (s₀ : Session Rid) (f : Session Rid → Option (Session Rid)) (P : Rid → Prop) : Prop :=
  ∀ s, s.children = s₀.children → s.reqNodes.Nodup → (∀ x, P x → x ∈ s.reqNodes) →
    ∃ s', f s = some s' ∧ s.Cleared s' P

theorem Cleared.trans {s₁ : Session Rid} {P Q : Rid → Prop} (h : s.Cleared s₁ P)
    (h' : s₁.Cleared s' Q) : s.Cleared s' fun x => P x ∨ Q x where
  parent := h'.parent.trans h.parent
  children := h'.children.trans h.children
  finished := h'.finished.trans h.finished
  sublist := h'.sublist.trans h.sublist
  mem x := by rw [h'.mem, h.mem]; tauto
  mark x := by rw [h'.mark, h.mark, h.finished]; tauto

theorem Clears.foldlM {f : Session Rid → Rid → Option (Session Rid)} {P : Rid → Rid → Prop}
    {l : List Rid} (hd : l.Pairwise fun a b => ∀ x, P a x → ¬ P b x)
    (hf : ∀ c ∈ l, s₀.Clears (f · c) (P c)) :
    s₀.Clears (fun s => l.foldlM f s) fun x => ∃ c ∈ l, P c x := by
  induction l with
  | nil => exact fun s _ _ _ => ⟨s, rfl, rfl, rfl, rfl, .refl _, by simp, by simp⟩
  | cons c l ih =>
    intro s hch hn hP
    rw [pairwise_cons] at hd
    simp only [mem_cons, forall_eq_or_imp, exists_eq_or_imp] at hf hP ⊢
    obtain ⟨s₁, e₁, h₁⟩ := hf.1 s hch hn fun x hx => hP x (.inl hx)
    have hrest (x) (hx : ∃ c ∈ l, P c x) : x ∈ s₁.reqNodes := by
      refine (h₁.mem x).2 ⟨hP x (.inr hx), fun hc => ?_⟩
      obtain ⟨d, hd', hx⟩ := hx
      exact hd.1 d hd' x hc hx
    obtain ⟨s₂, e₂, h₂⟩ := ih hd.2 hf.2 s₁ (h₁.children.trans hch) (hn.sublist h₁.sublist) hrest
    exact ⟨s₂, by simpa [e₁] using e₂, h₁.trans h₂⟩

theorem Forest.parent_unique (h : s.Forest) {p q c : Rid} (hp : p ∈ s.reqNodes) (hq : q ∈ s.reqNodes)
    (hc : c ∈ s.children p) (hc' : c ∈ s.children q) : p = q :=
  some.inj ((h.child p hp c hc).2.symm.trans (h.child q hq c hc').2)

variable [DecidableEq Rid]

namespace Forest

section

variable (h : s.Forest)
include h

theorem idxOf_lt {p c : Rid} (hp : p ∈ s.reqNodes) (hc : c ∈ s.children p) :
    s.reqNodes.idxOf p < s.reqNodes.idxOf c := by
  obtain ⟨hcm, hpar⟩ := h.child p hp c hc
  have hne := (h.listed c hcm p hpar).2.1
  refine lt_of_le_of_ne (not_lt.1 fun hlt => ?_) (mt (idxOf_inj hp).1 hne)
  have := pairwise_iff_getElem.1 h.order _ _ (idxOf_lt_length_of_mem hcm)
    (idxOf_lt_length_of_mem hp) hlt
  simp [hpar] at this

section

variable (hr : r ∈ s.reqNodes)
include hr

theorem below (hx : s.Below r x) :
    x ∈ s.reqNodes ∧ s.reqNodes.idxOf r ≤ s.reqNodes.idxOf x := by
  induction hx with
  | refl => exact ⟨hr, le_rfl⟩
  | tail _ hc ih => exact ⟨(h.child _ ih.1 _ hc).1, ih.2.trans (h.idxOf_lt ih.1 hc).le⟩

/-- Nothing lies below two different children of one node. -/
theorem disjoint :
    (s.children r).Pairwise fun a b => ∀ x, s.Below a x → ¬ s.Below b x := by
  -- of two nodes above `x` one is above the other; a child of `r` is not below its sibling
  have hsib {a b : Rid} (ha : a ∈ s.children r) (hb : b ∈ s.children r) (hab : s.Below a b) :
      a = b := by
    rcases ReflTransGen.cases_tail hab with e | ⟨p, hap, hb'⟩
    · exact e.symm
    · obtain ⟨ham, -⟩ := h.child r hr a ha
      obtain ⟨hp, hle⟩ := h.below ham hap
      obtain rfl := h.parent_unique hr hp hb hb'
      exact absurd (h.idxOf_lt hr ha) hle.not_gt
  have hup {a b y : Rid} (ha : a ∈ s.reqNodes) (hb : b ∈ s.reqNodes) (hay : s.Below a y)
      (hby : s.Below b y) : s.Below a b ∨ s.Below b a := by
    induction hay with
    | refl => exact .inr hby
    | @tail p y hap hy ih =>
      rcases ReflTransGen.cases_tail hby with rfl | ⟨q, hbq, hy'⟩
      · exact .inl (hap.tail hy)
      · obtain rfl := h.parent_unique (h.below ha hap).1 (h.below hb hbq).1 hy hy'
        exact ih hbq
  refine (h.children_nodup r hr).imp_of_mem fun {a b} ha hb hne x hax hbx => hne ?_
  rcases hup (h.child r hr a ha).1 (h.child r hr b hb).1 hax hbx with hab | hba
  · exact hsib ha hb hab
  · exact (hsib hb ha hba).symm

theorem not_under_self : ¬ s.Under r r := fun ⟨c, hc, hcr⟩ =>
  absurd (h.idxOf_lt hr hc) (h.below (h.child r hr c hc).1 hcr).2.not_gt

end

end

/-- `clear` removes the node and its descendants. -/
theorem clear (h : s₀.Forest) (fuel : Nat) (hr : r ∈ s₀.reqNodes)
    (hfuel : s₀.reqNodes.length ≤ fuel + s₀.reqNodes.idxOf r) :
    s₀.Clears (Session.clear fuel · r) (s₀.Below r) := by
  induction fuel generalizing r with
  | zero => exact absurd (idxOf_lt_length_of_mem hr) (by omega)
  | succ fuel ih =>
    intro s hch hn hP
    have hkids : ∀ c ∈ s₀.children r, s₀.Clears (Session.clear fuel · c) (s₀.Below c) :=
      fun c hc => ih (h.child r hr c hc).1 (by have := h.idxOf_lt hr hc; omega)
    obtain ⟨s₁, e₁, h₁⟩ := Clears.foldlM (h.disjoint hr) hkids s hch hn
      fun x ⟨c, hc, hx⟩ => hP x (.head hc hx)
    have hmem : r ∈ s₁.reqNodes := (h₁.mem r).2 ⟨hP r .refl, h.not_under_self hr⟩
    refine ⟨{ s₁.abort r with reqNodes := s₁.reqNodes.erase r }, ?_, ?_⟩
    · simp [Session.clear, hch, e₁, del, abort_eq, hmem]
    simp only [abort_eq]
    refine ⟨h₁.parent, h₁.children, h₁.finished, erase_sublist.trans h₁.sublist,
      fun x => ?_, fun x => ?_⟩
    · rw [(hn.sublist h₁.sublist).mem_erase_iff, h₁.mem, below_iff, not_or, ← ne_eq r, ne_comm]
      exact and_left_comm
    · rw [below_iff, ← h₁.finished]
      by_cases hx : x = r
      · subst hx; simp [h₁.mark, h₁.finished]; tauto
      · simp [hx, h₁.mark, h₁.finished, Ne.symm hx]

section

variable (h : s.Forest)
include h

/-- The tree without the descendants of `r`. -/
theorem cleared (hr : r ∈ s.reqNodes) (hp : s'.parent = s.parent)
    (hch : s'.children = update s.children r []) (hs : s'.reqNodes.Sublist s.reqNodes)
    (hm : ∀ x, x ∈ s'.reqNodes ↔ x ∈ s.reqNodes ∧ ¬ s.Under r x) : s'.Forest := by
  refine ⟨h.nodup.sublist hs, by simpa only [hp] using h.order.sublist hs, ?_, ?_, ?_⟩ <;>
    simp only [hp, hch]
  · intro p hpm
    by_cases e : p = r
    · simp [e]
    · simpa [e] using h.children_nodup p ((hm p).1 hpm).1
  · intro p hpm c hc
    by_cases e : p = r
    · simp [e] at hc
    rw [update_of_ne e] at hc
    obtain ⟨hpm, hpu⟩ := (hm p).1 hpm
    obtain ⟨hcm, hpar⟩ := h.child p hpm c hc
    refine ⟨(hm c).2 ⟨hcm, fun ⟨k, hk, hkc⟩ => ?_⟩, hpar⟩
    -- the parent of a descendant of `r` is `r` or a descendant of `r`
    rcases ReflTransGen.cases_tail hkc with rfl | ⟨q, hkq, hcq⟩
    · exact e (h.parent_unique hpm hr hc hk)
    · obtain rfl := h.parent_unique hpm (h.below (h.child r hr k hk).1 hkq).1 hc hcq
      exact hpu ⟨k, hk, hkq⟩
  · intro x hx p hpx
    obtain ⟨hxm, hxu⟩ := (hm x).1 hx
    obtain ⟨hpm, hne, hxp⟩ := h.listed x hxm p hpx
    have hpr : p ≠ r := by rintro rfl; exact hxu ⟨x, hxp, .refl⟩
    refine ⟨(hm p).2 ⟨hpm, fun ⟨k, hk, hkp⟩ => hxu ⟨k, hk, hkp.tail hxp⟩⟩, hne, ?_⟩
    rwa [update_of_ne hpr]

/-- A replaced request stays, without its descendants. -/
theorem replaced (hr : r ∈ s.reqNodes) :
    ∃ s', (s.abort r).clearChildren r = some s' ∧ s'.Forest ∧
    (∀ x, x ∈ s'.reqNodes ↔ x ∈ s.reqNodes ∧ ¬ s.Under r x) ∧
    ∀ x, s'.toFinish x ↔ s.toFinish x ∨ s.Below r x ∧ ¬ s.finished x := by
  have hkids : ∀ c ∈ s.children r, s.Clears (Session.clear s.reqNodes.length · c) (s.Below c) :=
    fun c hc => h.clear _ (h.child r hr c hc).1 (by omega)
  obtain ⟨s₁, e₁, h₁⟩ := Clears.foldlM (h.disjoint hr) hkids (s.abort r) (by rw [abort_eq])
    (by simpa [abort_eq] using h.nodup) fun x ⟨c, hc, hx⟩ => by
      simpa [abort_eq] using (h.below (h.child r hr c hc).1 hx).1
  simp only [abort_eq] at e₁ h₁
  refine ⟨{ s₁ with children := update s₁.children r [] }, ?_,
    h.cleared hr h₁.parent (by rw [h₁.children]) h₁.sublist h₁.mem, h₁.mem, fun x => ?_⟩
  · simp [abort_eq, Session.clearChildren, e₁]
  · rw [below_iff]
    by_cases hx : x = r
    · subst hx; simp [h₁.mark]; tauto
    · simp [hx, h₁.mark, Ne.symm hx]

theorem addNode {q : Option Rid} (hnew : rid ∉ s.reqNodes)
    (hq : ∀ p, q = some p → p ∈ s.reqNodes) : (s.addNode rid q).Forest := by
  have hne {y : Rid} (hy : y ∈ s.reqNodes) : y ≠ rid := fun e => hnew (e ▸ hy)
  constructor
  · exact h.nodup.append (nodup_singleton _) (by simpa using hnew)
  · refine pairwise_append.2 ⟨h.order.imp_of_mem fun {a b} ha _ hab => ?_, by simp, ?_⟩
    · simpa [Session.addNode, hne ha] using hab
    · intro a ha b hb
      obtain rfl : b = rid := by simpa using hb
      simpa [Session.addNode, hne ha] using fun e => hnew (h.listed a ha b e).1
  · intro p hp
    obtain hp | rfl : p ∈ s.reqNodes ∨ p = rid := by simpa [Session.addNode] using hp
    · have hk := h.children_nodup p hp
      have hrid : rid ∉ s.children p := fun hc => hnew (h.child p hp rid hc).1
      simp only [Session.addNode, ne_eq, hne hp, not_false_eq_true, update_of_ne]
      split
      · exact hk.append (nodup_singleton _) (by simpa using hrid)
      · exact hk
    · simp [Session.addNode]
  · intro p hp c hc
    obtain hp | rfl : p ∈ s.reqNodes ∨ p = rid := by simpa [Session.addNode] using hp
    · obtain hc | ⟨rfl, rfl⟩ : c ∈ s.children p ∨ q = some p ∧ c = rid := by
        simp only [Session.addNode, ne_eq, hne hp, not_false_eq_true, update_of_ne] at hc
        split at hc <;> simp_all
      · obtain ⟨hcm, hpar⟩ := h.child p hp c hc
        simp [Session.addNode, hcm, hne hcm, hpar]
      · simp [Session.addNode]
    · simp [Session.addNode] at hc
  · intro x hx p hpx
    obtain hx | rfl : x ∈ s.reqNodes ∨ x = rid := by simpa [Session.addNode] using hx
    · obtain ⟨hp, hpx, hxp⟩ := h.listed x hx p (by simpa [Session.addNode, hne hx] using hpx)
      refine ⟨by simp [Session.addNode, hp], hpx, ?_⟩
      simp only [Session.addNode, ne_eq, hne hp, not_false_eq_true, update_of_ne]
      split <;> simp [hxp]
    · obtain rfl : q = some p := by simpa [Session.addNode] using hpx
      have hp := hq p rfl
      simp [Session.addNode, hp, hne hp]

/-- The dictionary holds what is reachable from its roots. -/
theorem mem_iff :
    x ∈ s.reqNodes ↔ ∃ root ∈ s.reqNodes, s.parent root = none ∧ s.Below root x := by
  refine ⟨fun hx => ?_, fun ⟨root, hroot, _, hb⟩ => (h.below hroot hb).1⟩
  induction hi : s.reqNodes.idxOf x using Nat.strong_induction_on generalizing x with
  | _ i ih =>
    cases hp : s.parent x with
    | none => exact ⟨x, hx, hp, .refl⟩
    | some p =>
      obtain ⟨hpm, -, hc⟩ := h.listed x hx p hp
      obtain ⟨root, hroot, hnone, hb⟩ := ih _ (hi ▸ h.idxOf_lt hpm hc) hpm rfl
      exact ⟨root, hroot, hnone, hb.tail hc⟩

/-- The first node cleared leaves the dictionary, and the iteration over it raises. -/
theorem clearItems_eq_none (hne : s.reqNodes ≠ []) :
    clearItems s.reqNodes.length s.reqNodes.length s = none := by
  obtain ⟨r, l, e⟩ := exists_cons_of_ne_nil hne
  have hr : r ∈ s.reqNodes := by simp [e]
  obtain ⟨s₁, e₁, h₁⟩ := h.clear s.reqNodes.length hr (by omega) s rfl h.nodup
    fun x hx => (h.below hr hx).1
  have hlt : s₁.reqNodes.length ≠ l.length + 1 := fun hl => by
    have heq := h₁.sublist.eq_of_length (by simp [hl, e])
    exact ((h₁.mem r).1 (heq ▸ hr)).2 .refl
  simp only [e, length_cons] at e₁
  unfold clearItems
  rw [if_neg (by simp [e])]
  simp only [e, length_cons, Nat.sub_self, getElem?_cons_zero, e₁, bind_eq_bind,
    bind_some]
  unfold clearItems
  rw [if_pos hlt]

end

end Forest

/-- What a call that does not raise leaves: the forest, in which only the descendants of a
replaced request are missing, with it and them aborted where they had not finished. -/
structure Created (s : Session Rid) (rid : Rid) (p : SessionParams Rid) (s' : Session Rid) :
    Prop where
  forest : s'.Forest
  added : rid ∈ s'.reqNodes ↔ ∀ r, p.rid = some r → r ∈ s.reqNodes ∧ (p.replace ∨ s.finished r)
  new : s'.toFinish rid ↔ rid ∉ s'.reqNodes
  mem : ∀ x ≠ rid, x ∈ s'.reqNodes ↔ x ∈ s.reqNodes ∧ ¬ ∃ r, s.Replaces p r ∧ s.Under r x
  mark : ∀ x ≠ rid, s'.toFinish x ↔
    s.toFinish x ∨ (∃ r, s.Replaces p r ∧ s.Below r x) ∧ ¬ s.finished x

theorem Forest.created (h : s.Forest) (hnew : rid ∉ s.reqNodes) (p : SessionParams Rid)
    (hp : ¬ (p.replace ∧ p.rid = none ∧ s.reqNodes ≠ [])) :
    ∃ s', s.createReq rid p = some s' ∧ s.Created rid p s' := by
  have hreject : (s.reject rid).Forest := ⟨h.nodup, h.order, h.children_nodup, h.child, h.listed⟩
  have hroot : (s.addNode rid none).Forest := h.addNode hnew (by simp)
  obtain ⟨_ | r, _ | _⟩ := p
  · refine ⟨_, rfl, hroot, ?_, ?_, ?_, ?_⟩ <;> simp +contextual [Session.addNode, Replaces]
  · obtain e : s.reqNodes = [] := by simpa using hp
    refine ⟨s.addNode rid none, ?_, hroot, ?_, ?_, ?_, ?_⟩
    · simp [createReq, e, clearItems]
    all_goals simp +contextual [Session.addNode, Replaces, e]
  · by_cases hr : r ∈ s.reqNodes ∧ s.finished r
    · refine ⟨_, if_pos hr, h.addNode hnew (by simpa using hr.1), ?_, ?_, ?_, ?_⟩ <;>
        simp +contextual [Session.addNode, Replaces, hr]
    · refine ⟨_, if_neg hr, hreject, ?_, ?_, ?_, ?_⟩ <;>
        simp_all +contextual [reject, Replaces]
  · by_cases hr : r ∈ s.reqNodes
    · obtain ⟨t, e, ht, hmem, hmark⟩ := h.replaced hr
      refine ⟨t.addNode rid (some r), by simp [createReq, hr, e], ht.addNode ?_ ?_, ?_, ?_, ?_, ?_⟩
      · simp [hmem, hnew]
      · simpa [hmem] using ⟨hr, by simpa using h.not_under_self hr⟩
      all_goals simp +contextual [Session.addNode, Replaces, hr, hmem, hmark]
    · refine ⟨_, if_neg hr, hreject, ?_, ?_, ?_, ?_⟩ <;>
        simp_all +contextual [reject, Replaces]

/-- The sessions that calls with new request ids reach; requests finish at any time. -/
inductive Run : Session Rid → Prop
  | init : Run {}
  | create {s s' : Session Rid} {rid : Rid} {p : SessionParams Rid} (h : Run s)
      (hnew : rid ∉ s.reqNodes) (hs : s.createReq rid p = some s') : Run s'
  | finish {s : Session Rid} (h : Run s) (x : Rid) :
      Run { s with finished := update s.finished x true }

theorem Forest.createReq_eq_none (h : s.Forest) (hnew : rid ∉ s.reqNodes) (p : SessionParams Rid) :
    s.createReq rid p = none ↔ p.replace ∧ p.rid = none ∧ s.reqNodes ≠ [] := by
  refine ⟨fun hs => ?_, fun ⟨hr, hi, hne⟩ => ?_⟩
  · by_contra hp
    obtain ⟨s', e, -⟩ := h.created hnew p hp
    simp [e] at hs
  · simp [createReq, hr, hi, h.clearItems_eq_none hne]

theorem Forest.created_of_some {p : SessionParams Rid} (h : s.Forest) (hnew : rid ∉ s.reqNodes)
    (hs : s.createReq rid p = some s') : s.Created rid p s' := by
  obtain ⟨t, e, ht⟩ := h.created hnew p (by simp [← h.createReq_eq_none hnew, hs])
  rw [hs] at e
  exact some.inj e ▸ ht

theorem Run.forest (h : Run s) : s.Forest := by
  induction h with
  | init => exact ⟨.nil, .nil, nofun, nofun, nofun⟩
  | create _ hnew hs ih => exact (ih.created_of_some hnew hs).forest
  | finish _ _ ih => exact ⟨ih.nodup, ih.order, ih.children_nodup, ih.child, ih.listed⟩

end Session
end SglangRuntime.SessionController
