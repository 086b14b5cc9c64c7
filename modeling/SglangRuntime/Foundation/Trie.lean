import Mathlib.Data.List.AList
import Mathlib.Algebra.BigOperators.Group.Finset.Basic
import Mathlib.Algebra.BigOperators.Intervals
import Mathlib.Tactic

/-!
# Foundation — a compressed trie of identified nodes

A trie whose nodes are reached through identifiers: every node holds the segment of units that
leads to it from its parent, a dictionary of its children, a parent pointer, and some data.  The
identifiers are handed out by a counter and never reused.  Nothing here fixes what a unit, a
segment or the data is: `KeyOps` says what a segment type must provide, namely the list of units
it spells, a dictionary label that is determined by (and determines) the first page of units, and
prefixes and suffixes.

Four operations change a trie: `modifyData`, `split` (a node gives the front of its segment to a
fresh parent), `addLeaf` and `removeLeaf`.  What each of them does to the four views `parentOf`,
`keyOf`, `dataOf` and `child` is stated here once; the invariant `WF` and everything derived from
it only speaks about the views.
-/

set_option linter.unusedSectionVars false

namespace Foundation

open Function Option

abbrev NodeId := Nat

/-- What a trie needs of its segments: the units they spell, a dictionary label that agrees on two
segments exactly when their first pages do, and prefixes and suffixes. -/
structure KeyOps (K U D : Type) where
  page : Nat
  units : K → List U
  label : K → Option D
  take : Nat → K → K
  drop : Nat → K → K
  page_pos : 0 < page
  units_take : ∀ k n, units (take n k) = (units k).take n
  units_drop : ∀ k n, units (drop n k) = (units k).drop n
  label_isSome : ∀ k, page ≤ (units k).length → (label k).isSome
  label_eq_iff : ∀ k k', page ≤ (units k).length → page ≤ (units k').length →
    (label k = label k' ↔ (units k).take page = (units k').take page)

/-- A segment a node may hold: non-empty and a whole number of pages. -/
def KeyOps.Paged {K U D : Type} (O : KeyOps K U D) (k : K) : Prop :=
  0 < (O.units k).length ∧ O.page ∣ (O.units k).length

theorem KeyOps.Paged.page_le {K U D : Type} {O : KeyOps K U D} {k : K} (h : O.Paged k) :
    O.page ≤ (O.units k).length :=
  Nat.le_of_dvd h.1 h.2

structure Node (K D A : Type) where
  parent : Option NodeId
  children : AList (fun _ : D => NodeId)
  key : K
  data : A

structure Trie (K D A : Type) where
  node : NodeId → Option (Node K D A)
  root : NodeId
  counter : NodeId

namespace Trie

variable {K U D A : Type} [DecidableEq D]

/-! ### Views -/

def Live (T : Trie K D A) (i : NodeId) : Prop := (T.node i).isSome

instance (T : Trie K D A) (i : NodeId) : Decidable (T.Live i) :=
  inferInstanceAs (Decidable (_ = _))

section

variable (T : Trie K D A)

def parentOf (i : NodeId) : Option NodeId := (T.node i).bind Node.parent

def keyOf (i : NodeId) : Option K := (T.node i).map Node.key

def dataOf (i : NodeId) : Option A := (T.node i).map Node.data

/-- The child of `p` under label `d`. -/
def child (p : NodeId) (d : D) : Option NodeId :=
  (T.node p).bind fun n => n.children.lookup d

/-- The children of `p`, in dictionary order. -/
def childIds (p : NodeId) : List NodeId :=
  ((T.node p).map fun n => n.children.entries.map Sigma.snd).getD []

/-! ### Operations -/

end

def empty (k : K) (a : A) : Trie K D A where
  node := update (fun _ => none) 0 (some ⟨none, ∅, k, a⟩)
  root := 0
  counter := 1

def modifyData (T : Trie K D A) (i : NodeId) (f : A → A) : Trie K D A :=
  { T with
    node := update T.node i ((T.node i).map fun n => { n with data := f n.data }) }

/-- `i` hands the first `len` units of its segment to a fresh parent, which takes its place under
`dTop`; `i` keeps its identifier, its children and the rest, under `dRest`. -/
def split (O : KeyOps K U D) (T : Trie K D A) (i : NodeId) (dTop dRest : D) (len : Nat)
    (top bottom : A → A) : Trie K D A :=
  match T.node i with
  | none => T
  | some n =>
    let m := T.counter
    let prefixNode : Node K D A := ⟨n.parent, AList.singleton dRest i, O.take len n.key, top n.data⟩
    let node₁ := update T.node m (some prefixNode)
    let node₂ := update node₁ i
      (some { n with parent := some m, key := O.drop len n.key, data := bottom n.data })
    let node₃ := match n.parent with
      | none => node₂
      | some p => update node₂ p
          ((node₂ p).map fun q => { q with children := q.children.insert dTop m })
    { T with node := node₃, counter := m + 1 }

/-- A fresh childless node below `p`, under `d`. -/
def addLeaf (T : Trie K D A) (p : NodeId) (d : D) (k : K) (a : A) : Trie K D A :=
  let m := T.counter
  let node₁ := update T.node m (some ⟨some p, ∅, k, a⟩)
  { T with
    node := update node₁ p
      ((node₁ p).map fun q => { q with children := q.children.insert d m })
    counter := m + 1 }

/-- `i` leaves the trie and its parent's dictionary, where it stands under `d`. -/
def removeLeaf (T : Trie K D A) (i : NodeId) (d : D) : Trie K D A :=
  match T.parentOf i with
  | none => T
  | some p =>
    let node₁ := update T.node p
      ((T.node p).map fun q => { q with children := q.children.erase d })
    { T with node := update node₁ i none }

/-! ### What the operations do to the views -/

section Views

variable {O : KeyOps K U D} {T : Trie K D A} {i j p q : NodeId} {d dTop dRest : D} {len : Nat}
  {k : K} {a : A} {f top bottom : A → A}

theorem live_iff : T.Live i ↔ ∃ n, T.node i = some n := isSome_iff_exists

theorem live_of_parentOf (h : T.parentOf i = some p) : T.Live i := by
  obtain ⟨n, hn, -⟩ := bind_eq_some_iff.mp h
  exact live_iff.mpr ⟨n, hn⟩

theorem live_of_keyOf (h : T.keyOf i = some k) : T.Live i := by
  obtain ⟨n, hn, -⟩ := map_eq_some_iff.mp h
  exact live_iff.mpr ⟨n, hn⟩

theorem live_of_dataOf (h : T.dataOf i = some a) : T.Live i := by
  obtain ⟨n, hn, -⟩ := map_eq_some_iff.mp h
  exact live_iff.mpr ⟨n, hn⟩

theorem live_of_child (h : T.child p d = some i) : T.Live p := by
  obtain ⟨n, hn, -⟩ := bind_eq_some_iff.mp h
  exact live_iff.mpr ⟨n, hn⟩

theorem Live.key (h : T.Live i) : ∃ k, T.keyOf i = some k := by
  obtain ⟨n, hn⟩ := live_iff.mp h
  exact ⟨n.key, by simp [keyOf, hn]⟩

theorem Live.data (h : T.Live i) : ∃ a, T.dataOf i = some a := by
  obtain ⟨n, hn⟩ := live_iff.mp h
  exact ⟨n.data, by simp [dataOf, hn]⟩

theorem not_live_iff : ¬ T.Live i ↔ T.node i = none := by simp [Live]

theorem mem_childIds : i ∈ T.childIds p ↔ ∃ d, T.child p d = some i := by
  unfold childIds child
  rcases hp : T.node p with - | n
  · simp
  · have key : ∀ d, n.children.lookup d = some i ↔ Sigma.mk d i ∈ n.children.entries :=
      fun d => AList.mem_lookup_iff
    simp [key]

@[simp] theorem root_modifyData : (T.modifyData i f).root = T.root := rfl

@[simp] theorem counter_modifyData : (T.modifyData i f).counter = T.counter := rfl

theorem node_modifyData : (T.modifyData i f).node j =
    if j = i then (T.node i).map fun n => { n with data := f n.data } else T.node j := by
  simp [modifyData, update_apply]

@[simp] theorem live_modifyData : (T.modifyData i f).Live j ↔ T.Live j := by
  unfold Live; rw [node_modifyData]; split_ifs with h <;> simp [h]

@[simp] theorem parentOf_modifyData : (T.modifyData i f).parentOf j = T.parentOf j := by
  unfold parentOf; rw [node_modifyData]
  split_ifs with h
  · subst h; cases T.node j <;> rfl
  · rfl

@[simp] theorem keyOf_modifyData : (T.modifyData i f).keyOf j = T.keyOf j := by
  unfold keyOf; rw [node_modifyData]
  split_ifs with h
  · subst h; cases T.node j <;> rfl
  · rfl

@[simp] theorem child_modifyData : (T.modifyData i f).child p d = T.child p d := by
  unfold child; rw [node_modifyData]
  split_ifs with h
  · subst h; cases T.node p <;> rfl
  · rfl

theorem dataOf_modifyData : (T.modifyData i f).dataOf j =
    if j = i then (T.dataOf i).map f else T.dataOf j := by
  unfold dataOf; rw [node_modifyData]
  split_ifs with h
  · cases T.node i <;> rfl
  · rfl

@[simp] theorem dataOf_modifyData_self : (T.modifyData i f).dataOf i = (T.dataOf i).map f := by
  simp [dataOf_modifyData]

theorem dataOf_modifyData_ne (h : j ≠ i) : (T.modifyData i f).dataOf j = T.dataOf j := by
  simp [dataOf_modifyData, h]

/-- Two tries that differ in their nodes' data at most. -/
structure SameShape (T T' : Trie K D A) : Prop where
  root : T'.root = T.root
  counter : T'.counter = T.counter
  parentOf : ∀ i, T'.parentOf i = T.parentOf i
  keyOf : ∀ i, T'.keyOf i = T.keyOf i
  child : ∀ i d, T'.child i d = T.child i d

namespace SameShape

variable {T' T'' : Trie K D A}

theorem refl (T : Trie K D A) : SameShape T T :=
  ⟨rfl, rfl, fun _ => rfl, fun _ => rfl, fun _ _ => rfl⟩

theorem trans (h : SameShape T T') (h' : SameShape T' T'') : SameShape T T'' where
  root := h'.root.trans h.root
  counter := h'.counter.trans h.counter
  parentOf := fun i => (h'.parentOf i).trans (h.parentOf i)
  keyOf := fun i => (h'.keyOf i).trans (h.keyOf i)
  child := fun i d => (h'.child i d).trans (h.child i d)

theorem modifyData (T : Trie K D A) (i : NodeId) (f : A → A) : SameShape T (T.modifyData i f) :=
  ⟨rfl, rfl, fun _ => parentOf_modifyData, fun _ => keyOf_modifyData, fun _ _ => child_modifyData⟩

theorem live (h : SameShape T T') : T'.Live i ↔ T.Live i := by
  have e := congrArg isSome (h.keyOf i)
  simp only [Trie.keyOf, isSome_map] at e
  rw [Live, Live, e]

end SameShape

/-- The facts about `i` and its parent under which a split or a removal is the pointer surgery it
is meant to be. -/
structure Below (T : Trie K D A) (i p : NodeId) : Prop where
  parent : T.parentOf i = some p
  live : T.Live p
  ne : i ≠ p
  fresh : ¬ T.Live T.counter

theorem Below.ne_counter (h : T.Below i p) : i ≠ T.counter := by
  rintro rfl; exact h.fresh (live_of_parentOf h.parent)

theorem Below.parent_ne_counter (h : T.Below i p) : p ≠ T.counter := by
  rintro rfl; exact h.fresh h.live

@[simp] theorem root_split : (T.split O i dTop dRest len top bottom).root = T.root := by
  unfold split; split <;> rfl

section

variable (h : T.Below i p)
include h

theorem Below.counter_split : (T.split O i dTop dRest len top bottom).counter = T.counter + 1 := by
  obtain ⟨n, hn⟩ := live_iff.mp (live_of_parentOf h.parent)
  simp only [split, hn]

/-- The node map of a split, at each of the three identifiers it touches. -/
theorem Below.node_split (O : KeyOps K U D) (dTop dRest : D) (len : Nat)
    (top bottom : A → A) : ∃ n q, T.node i = some n ∧ n.parent = some p ∧
    T.node p = some q ∧ ∀ j, (T.split O i dTop dRest len top bottom).node j =
      if j = T.counter then
        some ⟨some p, AList.singleton dRest i, O.take len n.key, top n.data⟩
      else if j = i then
        some { n with parent := some T.counter, key := O.drop len n.key, data := bottom n.data }
      else if j = p then some { q with children := q.children.insert dTop T.counter }
      else T.node j := by
  obtain ⟨n, hn⟩ := live_iff.mp (live_of_parentOf h.parent)
  obtain ⟨q, hq⟩ := live_iff.mp h.live
  have hnp : n.parent = some p := by simpa [parentOf, hn] using h.parent
  have hpm := h.parent_ne_counter
  have him := h.ne_counter
  have hip := h.ne
  refine ⟨n, q, hn, hnp, hq, fun j => ?_⟩
  simp only [split, hn, hnp, update_apply, hpm, hip.symm, if_false, hq, map_some]
  by_cases hjm : j = T.counter
  · subst hjm; simp [hpm.symm, him.symm]
  by_cases hji : j = i
  · subst hji; simp [him, hip]
  simp [hjm, hji]

theorem Below.live_split :
    (T.split O i dTop dRest len top bottom).Live j ↔ j = T.counter ∨ T.Live j := by
  obtain ⟨n, q, hn, -, hq, e⟩ := h.node_split O dTop dRest len top bottom
  unfold Live
  rw [e]
  by_cases hjm : j = T.counter
  · simp [hjm]
  by_cases hji : j = i
  · simp [hji, hn, h.ne_counter]
  by_cases hjp : j = p
  · simp [hjp, hq, h.ne.symm, h.parent_ne_counter]
  simp [hjm, hji, hjp]

theorem Below.parentOf_split : (T.split O i dTop dRest len top bottom).parentOf j =
      if j = T.counter then some p else if j = i then some T.counter else T.parentOf j := by
  obtain ⟨n, q, hn, -, hq, e⟩ := h.node_split O dTop dRest len top bottom
  unfold parentOf
  rw [e]
  split_ifs with h₁ h₂ h₃
  · rfl
  · rfl
  · subst h₃; simp [hq]
  · rfl

theorem Below.keyOf_split : (T.split O i dTop dRest len top bottom).keyOf j =
      if j = T.counter then (T.keyOf i).map (O.take len)
      else if j = i then (T.keyOf i).map (O.drop len) else T.keyOf j := by
  obtain ⟨n, q, hn, -, hq, e⟩ := h.node_split O dTop dRest len top bottom
  unfold keyOf
  rw [e, hn]
  split_ifs with h₁ h₂ h₃
  · rfl
  · rfl
  · subst h₃; simp [hq]
  · rfl

theorem Below.dataOf_split : (T.split O i dTop dRest len top bottom).dataOf j =
      if j = T.counter then (T.dataOf i).map top
      else if j = i then (T.dataOf i).map bottom else T.dataOf j := by
  obtain ⟨n, q, hn, -, hq, e⟩ := h.node_split O dTop dRest len top bottom
  unfold dataOf
  rw [e, hn]
  split_ifs with h₁ h₂ h₃
  · rfl
  · rfl
  · subst h₃; simp [hq]
  · rfl

theorem Below.child_split : (T.split O i dTop dRest len top bottom).child j d =
      if j = T.counter then (if d = dRest then some i else none)
      else if j = p ∧ d = dTop then some T.counter else T.child j d := by
  obtain ⟨n, q, hn, -, hq, e⟩ := h.node_split O dTop dRest len top bottom
  unfold child
  rw [e]
  by_cases hjm : j = T.counter
  · rw [if_pos hjm, if_pos hjm, bind_some, ← AList.insert_empty]
    by_cases hd : d = dRest
    · subst hd; rw [AList.lookup_insert, if_pos rfl]
    · rw [AList.lookup_insert_ne hd, AList.lookup_empty, if_neg hd]
  by_cases hji : j = i
  · subst hji; simp [hjm, hn, h.ne]
  by_cases hjp : j = p
  · subst hjp
    by_cases hd : d = dTop
    · subst hd; simp [hjm, hji]
    · simp [hjm, hji, hd, hq, AList.lookup_insert_ne hd]
  simp [hjm, hji, hjp]

/-! A leaf is added below a live node, under a label its dictionary does not hold. -/

end

@[simp] theorem root_addLeaf : (T.addLeaf p d k a).root = T.root := rfl

@[simp] theorem counter_addLeaf : (T.addLeaf p d k a).counter = T.counter + 1 := rfl

section

variable (hp : p ≠ T.counter)
include hp

theorem node_addLeaf (j : NodeId) (d : D) (k : K) (a : A) : (T.addLeaf p d k a).node j =
      if j = T.counter then some ⟨some p, ∅, k, a⟩
      else if j = p then (T.node p).map fun q => { q with children := q.children.insert d T.counter }
      else T.node j := by
  simp only [addLeaf, update_apply, hp, if_false]
  by_cases hjm : j = T.counter
  · simp [hjm, hp.symm]
  · simp [hjm]

theorem live_addLeaf : (T.addLeaf p d k a).Live j ↔ j = T.counter ∨ T.Live j := by
  unfold Live
  rw [node_addLeaf hp]
  split_ifs with h₁ h₂
  · simp [h₁]
  · simp [h₂, hp]
  · simp [h₁]

theorem parentOf_addLeaf :
    (T.addLeaf p d k a).parentOf j = if j = T.counter then some p else T.parentOf j := by
  unfold parentOf
  rw [node_addLeaf hp]
  split_ifs with h₁ h₂
  · rfl
  · subst h₂; cases T.node j <;> rfl
  · rfl

theorem keyOf_addLeaf :
    (T.addLeaf p d k a).keyOf j = if j = T.counter then some k else T.keyOf j := by
  unfold keyOf
  rw [node_addLeaf hp]
  split_ifs with h₁ h₂
  · rfl
  · subst h₂; cases T.node j <;> rfl
  · rfl

theorem dataOf_addLeaf :
    (T.addLeaf p d k a).dataOf j = if j = T.counter then some a else T.dataOf j := by
  unfold dataOf
  rw [node_addLeaf hp]
  split_ifs with h₁ h₂
  · rfl
  · subst h₂; cases T.node j <;> rfl
  · rfl

theorem child_addLeaf (hlive : T.Live p) {d' : D} : (T.addLeaf p d k a).child j d' =
      if j = T.counter then none
      else if j = p ∧ d' = d then some T.counter else T.child j d' := by
  obtain ⟨n, hn⟩ := live_iff.mp hlive
  unfold child
  rw [node_addLeaf hp]
  by_cases hjm : j = T.counter
  · simp [hjm]
  by_cases hjp : j = p
  · subst hjp
    by_cases hd : d' = d
    · subst hd; simp [hjm, hn]
    · simp [hjm, hd, hn, AList.lookup_insert_ne hd]
  simp [hjm, hjp]

/-! A leaf leaves, with its entry in the parent's dictionary. -/

end

@[simp] theorem root_removeLeaf : (T.removeLeaf i d).root = T.root := by
  unfold removeLeaf; split <;> rfl

@[simp] theorem counter_removeLeaf : (T.removeLeaf i d).counter = T.counter := by
  unfold removeLeaf; split <;> rfl

section

variable (h : T.Below i p)
include h

theorem Below.node_removeLeaf (d : D) : (T.removeLeaf i d).node j = if j = i then none
    else if j = p then (T.node p).map fun q => { q with children := q.children.erase d }
    else T.node j := by
  simp only [removeLeaf, h.parent, update_apply]

theorem Below.live_removeLeaf : (T.removeLeaf i d).Live j ↔ j ≠ i ∧ T.Live j := by
  unfold Live
  rw [h.node_removeLeaf]
  split_ifs with h₁ h₂
  · simp [h₁]
  · simp [h₂, h.ne.symm]
  · simp [h₁]

theorem Below.parentOf_removeLeaf :
    (T.removeLeaf i d).parentOf j = if j = i then none else T.parentOf j := by
  unfold parentOf
  rw [h.node_removeLeaf]
  split_ifs with h₁ h₂
  · rfl
  · subst h₂; cases T.node j <;> rfl
  · rfl

theorem Below.keyOf_removeLeaf :
    (T.removeLeaf i d).keyOf j = if j = i then none else T.keyOf j := by
  unfold keyOf
  rw [h.node_removeLeaf]
  split_ifs with h₁ h₂
  · rfl
  · subst h₂; cases T.node j <;> rfl
  · rfl

theorem Below.dataOf_removeLeaf :
    (T.removeLeaf i d).dataOf j = if j = i then none else T.dataOf j := by
  unfold dataOf
  rw [h.node_removeLeaf]
  split_ifs with h₁ h₂
  · rfl
  · subst h₂; cases T.node j <;> rfl
  · rfl

theorem Below.child_removeLeaf {d' : D} : (T.removeLeaf i d).child j d' =
      if j = i ∨ (j = p ∧ d' = d) then none else T.child j d' := by
  unfold child
  rw [h.node_removeLeaf]
  by_cases hji : j = i
  · simp [hji]
  by_cases hjp : j = p
  · subst hjp
    by_cases hd : d' = d
    · subst hd; cases T.node j <;> simp [hji]
    · cases T.node j <;> simp [hji, hd, AList.lookup_erase_ne hd]
  simp [hji, hjp]

end

end Views

end Trie

end Foundation
