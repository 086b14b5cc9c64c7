import SglangRuntime.Foundation.Trie

/-!
# Foundation — paths to the root, and well-formed tries

A well-formed trie (`WF`) is one whose dictionaries and parent pointers agree, label by label,
whose segments are whole pages, and in which walking up the parent pointers from any live node
ends at the root.  The walk visits the list `path`; `spell` is the list of units it spells, read
from the root down.

* `SameShape.wf`, `WF.split`, `WF.addLeaf`, `WF.removeLeaf`: the operations keep `WF`.
* `WF.path_split`: a split inserts the fresh node right above the split one, in every path that
  holds it; the other operations leave the paths of the surviving nodes alone.
* `WF.spell_split`: no operation changes what the path to a surviving node spells.
-/

set_option linter.unusedSectionVars false

namespace Foundation.Trie

open List Option

variable {K U D A : Type} [DecidableEq D] {O : KeyOps K U D} {T : Trie K D A} {l : List NodeId}

/-! ### Paths -/

/-- `l` lists `i` and its ancestors, bottom up, the root left out. -/
inductive IsPath (T : Trie K D A) : NodeId → List NodeId → Prop where
  | root : IsPath T T.root []
  | cons {i p : NodeId} {l : List NodeId} (hi : i ≠ T.root) (hp : T.parentOf i = some p)
      (h : IsPath T p l) : IsPath T i (i :: l)

/-- The walk `while node != root: …; node = node.parent`, as the list of nodes it visits. -/
def walkUp (T : Trie K D A) : Nat → NodeId → List NodeId
  | 0, _ => []
  | fuel + 1, i =>
    if i = T.root then []
    else match T.parentOf i with
      | none => [i]
      | some p => i :: walkUp T fuel p

/-- The nodes from `i` up to the root, the root left out. -/
def path (T : Trie K D A) (i : NodeId) : List NodeId := T.walkUp T.counter i

/-- The units from the root down to the head of a path. -/
def spell (O : KeyOps K U D) (T : Trie K D A) : List NodeId → List U
  | [] => []
  | i :: l => spell O T l ++ ((T.keyOf i).map O.units).getD []

/-- The units from the root down to `i`. -/
def spellTo (O : KeyOps K U D) (T : Trie K D A) (i : NodeId) : List U := T.spell O (T.path i)

section Paths

variable {T : Trie K D A} {i j p : NodeId} {l l' : List NodeId}

section

variable (h : T.IsPath i l)
include h

theorem IsPath.det (h' : T.IsPath i l') : l = l' := by
  induction h generalizing l' with
  | root =>
    cases h' with
    | root => rfl
    | cons hi => exact absurd rfl hi
  | cons hi hp _ ih =>
    cases h' with
    | root => exact absurd rfl hi
    | cons _ hp' h' =>
      rw [hp, some.injEq] at hp'
      subst hp'
      rw [ih h']

/-- Every node of a path has the tail below it as its own path. -/
theorem IsPath.of_mem (hj : j ∈ l) : ∃ l₁ l₂, l = l₁ ++ j :: l₂ ∧ T.IsPath j (j :: l₂) := by
  induction h with
  | root => simp at hj
  | @cons i p l hi hp h ih =>
    rcases mem_cons.mp hj with rfl | hj
    · exact ⟨[], l, rfl, .cons hi hp h⟩
    · obtain ⟨l₁, l₂, rfl, h'⟩ := ih hj
      exact ⟨i :: l₁, l₂, rfl, h'⟩

theorem IsPath.nodup : l.Nodup := by
  induction h with
  | root => exact nodup_nil
  | @cons i p l hi hp h ih =>
    refine nodup_cons.mpr ⟨fun hm => ?_, ih⟩
    -- a second occurrence of `i` would give `i` two paths of different lengths
    obtain ⟨l₁, l₂, rfl, h'⟩ := h.of_mem hm
    have e := congrArg List.length (h'.det (.cons hi hp h))
    simp only [length_cons, length_append] at e
    omega

theorem IsPath.root_not_mem : T.root ∉ l := by
  induction h with
  | root => simp
  | cons hi _ _ ih => simp [Ne.symm hi, ih]

theorem IsPath.live_of_mem (hj : j ∈ l) : T.Live j := by
  obtain ⟨-, l₂, -, h'⟩ := h.of_mem hj
  cases h' with
  | cons _ hp _ => exact live_of_parentOf hp

theorem IsPath.walkUp_eq {fuel : Nat} (hf : l.length ≤ fuel) : T.walkUp fuel i = l := by
  induction h generalizing fuel with
  | root => cases fuel <;> simp [walkUp]
  | cons hi hp _ ih =>
    cases fuel with
    | zero => simp at hf
    | succ fuel => simp [walkUp, hi, hp, ih (by simpa using hf)]

theorem IsPath.congr {T' : Trie K D A} (hroot : T'.root = T.root)
    (hpar : ∀ j ∈ l, T'.parentOf j = T.parentOf j) : T'.IsPath i l := by
  induction h with
  | root => rw [← hroot]; exact .root
  | @cons i p l hi hp _ ih =>
    exact .cons (hroot ▸ hi) ((hpar i (by simp)).trans hp)
      (ih fun j hj => hpar j (mem_cons_of_mem _ hj))

end

/-- A node without children is on no path but its own. -/
theorem IsPath.not_mem_of_childless (h : T.IsPath j l) (hc : ∀ x, T.parentOf x ≠ some i)
    (hj : j ≠ i) : i ∉ l := by
  induction h with
  | root => simp
  | @cons j p l hi hp _ ih =>
    have hpi : p ≠ i := by rintro rfl; exact hc _ hp
    simp [hj.symm, ih hpi]

end Paths

/-! ### Well-formed tries -/

structure WF (O : KeyOps K U D) (T : Trie K D A) : Prop where
  root_live : T.Live T.root
  root_parent : T.parentOf T.root = none
  lt_counter : ∀ {i}, T.Live i → i < T.counter
  /-- the dictionaries and the parent pointers say the same, under each node's own label -/
  child_iff : ∀ {p d i}, T.child p d = some i ↔
    T.parentOf i = some p ∧ (T.keyOf i).bind O.label = some d
  paged : ∀ {i k}, i ≠ T.root → T.keyOf i = some k → O.Paged k
  grounded : ∀ {i}, T.Live i → ∃ l, T.IsPath i l

namespace WF

variable {O : KeyOps K U D} {T : Trie K D A} {i j p : NodeId} {d : D} {k : K} {a : A} {len : Nat}

section

variable (h : WF O T) {l : List NodeId}
include h

theorem fresh : ¬ T.Live T.counter := fun hl => Nat.lt_irrefl _ (h.lt_counter hl)

theorem parent_live (hp : T.parentOf i = some p) : T.Live p := by
  obtain ⟨l, hl⟩ := h.grounded (live_of_parentOf hp)
  cases hl with
  | root => rw [h.root_parent] at hp; cases hp
  | cons _ hp' hl =>
    rw [hp, some.injEq] at hp'
    subst hp'
    cases hl with
    | root => exact h.root_live
    | cons _ hp'' _ => exact live_of_parentOf hp''

theorem below_of_parentOf (hp : T.parentOf i = some p) : T.Below i p := by
  refine ⟨hp, h.parent_live hp, ?_, h.fresh⟩
  rintro rfl
  obtain ⟨l, hl⟩ := h.grounded (live_of_parentOf hp)
  have hnd := hl.nodup
  cases hl with
  | root => rw [h.root_parent] at hp; cases hp
  | cons hi hp' hl =>
    rw [hp, some.injEq] at hp'
    subst hp'
    cases hl with
    | root => exact hi rfl
    | cons => simp at hnd

theorem below (hi : T.Live i) (hr : i ≠ T.root) : ∃ p, T.Below i p := by
  obtain ⟨l, hl⟩ := h.grounded hi
  cases hl with
  | root => exact absurd rfl hr
  | cons _ hp _ => exact ⟨_, h.below_of_parentOf hp⟩

theorem ne_root_of_parentOf (hp : T.parentOf i = some p) : i ≠ T.root := by
  rintro rfl
  rw [h.root_parent] at hp
  cases hp

theorem length_path_le (hl : T.IsPath i l) : l.length ≤ T.counter := by
  have hsub : l ⊆ List.range T.counter := fun j hj =>
    mem_range.mpr (h.lt_counter (hl.live_of_mem hj))
  simpa using (hl.nodup.subperm hsub).length_le

theorem path_eq (hl : T.IsPath i l) : T.path i = l :=
  hl.walkUp_eq (h.length_path_le hl)

theorem isPath (hi : T.Live i) : T.IsPath i (T.path i) := by
  obtain ⟨l, hl⟩ := h.grounded hi
  rwa [h.path_eq hl]

@[simp] theorem path_root : T.path T.root = [] := h.path_eq .root

theorem path_cons (hp : T.parentOf i = some p) : T.path i = i :: T.path p :=
  h.path_eq (.cons (h.ne_root_of_parentOf hp) hp (h.isPath (h.parent_live hp)))

/-- Induction down from the root. -/
@[elab_as_elim]
theorem induct {motive : NodeId → Prop} (root : motive T.root)
    (step : ∀ i p k, T.parentOf i = some p → T.keyOf i = some k → motive p → motive i)
    (hi : T.Live i) : motive i := by
  obtain ⟨l, hl⟩ := h.grounded hi
  induction hl with
  | root => exact root
  | @cons i p l _ hp _ ih =>
    obtain ⟨k, hk⟩ := (live_of_parentOf hp).key
    exact step i p k hp hk (ih (h.parent_live hp))

theorem label (hi : T.Live i) (hr : i ≠ T.root) :
    ∃ k d, T.keyOf i = some k ∧ O.label k = some d := by
  obtain ⟨k, hk⟩ := hi.key
  obtain ⟨d, hd⟩ := isSome_iff_exists.mp (O.label_isSome k (h.paged hr hk).page_le)
  exact ⟨k, d, hk, hd⟩

theorem mem_childIds : j ∈ T.childIds p ↔ T.parentOf j = some p := by
  rw [Trie.mem_childIds]
  constructor
  · rintro ⟨d, hd⟩
    exact (h.child_iff.mp hd).1
  · intro hj
    obtain ⟨k, d, hk, hd⟩ := h.label (live_of_parentOf hj) (h.ne_root_of_parentOf hj)
    exact ⟨d, h.child_iff.mpr ⟨hj, by rw [hk]; exact hd⟩⟩

/-- No node is the child of another under two labels. -/
theorem nodup_childIds (p : NodeId) : (T.childIds p).Nodup := by
  rw [childIds]
  rcases hn : T.node p with - | n
  · exact nodup_nil
  refine (n.children.nodupKeys.nodup).map_on ?_
  rintro ⟨d, i⟩ hd ⟨d', i'⟩ hd' rfl
  have hchild : ∀ d, Sigma.mk d i ∈ n.children.entries → (T.keyOf i).bind O.label = some d := by
    intro d hd
    refine (h.child_iff (p := p).mp ?_).2
    rw [child, hn]
    exact AList.mem_lookup_iff.mpr hd
  rw [some.inj ((hchild d hd).symm.trans (hchild d' hd'))]

theorem childIds_eq_nil : T.childIds p = [] ↔ ∀ j, T.parentOf j ≠ some p := by
  rw [eq_nil_iff_forall_not_mem]
  exact forall_congr' fun j => not_congr h.mem_childIds

theorem spellTo_root : T.spellTo O T.root = [] := by
  rw [spellTo, h.path_root, spell]

theorem spellTo_cons (hp : T.parentOf i = some p) (hk : T.keyOf i = some k) :
    T.spellTo O i = T.spellTo O p ++ O.units k := by
  rw [spellTo, h.path_cons hp, spell, hk]
  rfl

theorem page_dvd_spellTo (hi : T.Live i) : O.page ∣ (T.spellTo O i).length := by
  refine h.induct ?_ ?_ hi
  · rw [h.spellTo_root]; exact dvd_zero _
  · intro i p k hp hk ih
    rw [h.spellTo_cons hp hk, length_append]
    exact dvd_add ih (h.paged (h.ne_root_of_parentOf hp) hk).2

end

end WF

theorem wf_empty (O : KeyOps K U D) (k : K) (a : A) : WF O (Trie.empty k a : Trie K D A) := by
  have hnode : ∀ i, (Trie.empty k a : Trie K D A).node i =
      if i = 0 then some ⟨none, ∅, k, a⟩ else none := fun i => by
    simp [Trie.empty, Function.update_apply]
  have hlive : ∀ i, (Trie.empty k a : Trie K D A).Live i ↔ i = 0 := fun i => by
    rw [Live, hnode]; split_ifs with e <;> simp [e]
  have hpar : ∀ i, (Trie.empty k a : Trie K D A).parentOf i = none := fun i => by
    rw [parentOf, hnode]; split_ifs <;> rfl
  have hchild : ∀ i d, (Trie.empty k a : Trie K D A).child i d = none := fun i d => by
    rw [child, hnode]; split_ifs <;> rfl
  refine ⟨(hlive _).mpr rfl, hpar _, ?_, ?_, ?_, ?_⟩
  · intro i hi
    rw [(hlive i).mp hi]
    exact Nat.one_pos
  · intro p d i
    simp [hchild, hpar]
  · intro i k' hi hk'
    exact absurd ((hlive i).mp (live_of_keyOf hk')) hi
  · intro i hi
    rw [(hlive i).mp hi]
    exact ⟨[], .root⟩

theorem spell_congr {T' : Trie K D A}
    (h : ∀ j ∈ l, T'.keyOf j = T.keyOf j) : T'.spell O l = T.spell O l := by
  induction l with
  | nil => rfl
  | cons i l ih =>
    rw [spell, spell, h i (by simp), ih fun j hj => h j (mem_cons_of_mem _ hj)]

/-! ### A change of data -/

namespace SameShape

variable {O : KeyOps K U D} {T T' : Trie K D A} {i : NodeId}

theorem wf (s : SameShape T T') (h : WF O T) : WF O T' where
  root_live := by rw [s.root, s.live]; exact h.root_live
  root_parent := by rw [s.root, s.parentOf]; exact h.root_parent
  lt_counter := fun hj => s.counter ▸ h.lt_counter (s.live.mp hj)
  child_iff := by
    intro p d j
    rw [s.child, s.parentOf, s.keyOf, h.child_iff]
  paged := fun hj hk => h.paged (s.root ▸ hj) ((s.keyOf _).symm.trans hk)
  grounded := fun hj => by
    obtain ⟨l, hl⟩ := h.grounded (s.live.mp hj)
    exact ⟨l, hl.congr s.root fun j _ => s.parentOf j⟩

theorem path (s : SameShape T T') (h : WF O T) (hi : T.Live i) : T'.path i = T.path i :=
  (s.wf h).path_eq ((h.isPath hi).congr s.root fun j _ => s.parentOf j)

theorem spellTo (s : SameShape T T') (h : WF O T) (hi : T.Live i) :
    T'.spellTo O i = T.spellTo O i := by
  rw [Trie.spellTo, Trie.spellTo, s.path h hi]
  exact spell_congr fun j _ => s.keyOf j

end SameShape

theorem WF.modifyData (h : WF O T) (i : NodeId) (f : A → A) : WF O (T.modifyData i f) :=
  (SameShape.modifyData T i f).wf h

/-! ### A split -/

/-- `m` right above `i` in a list of nodes. -/
def insertAbove (i m : NodeId) (l : List NodeId) : List NodeId :=
  l.flatMap fun x => if x = i then [x, m] else [x]

theorem insertAbove_cons_self {i m : NodeId} :
    insertAbove i m (i :: l) = i :: m :: insertAbove i m l := by simp [insertAbove]

theorem insertAbove_cons_ne {i m j : NodeId} (h : j ≠ i) :
    insertAbove i m (j :: l) = j :: insertAbove i m l := by simp [insertAbove, h]

theorem mem_insertAbove {i m x : NodeId} : x ∈ insertAbove i m l ↔ x ∈ l ∨ (x = m ∧ i ∈ l) := by
  induction l with
  | nil => simp [insertAbove]
  | cons y l ih =>
    by_cases hy : y = i
    · subst hy; rw [insertAbove_cons_self]; simp only [mem_cons, ih]; tauto
    · rw [insertAbove_cons_ne hy]; simp only [mem_cons, ih]
      tauto

theorem insertAbove_of_not_mem {i m : NodeId} (h : i ∉ l) : insertAbove i m l = l := by
  induction l with
  | nil => rfl
  | cons y l ih =>
    rw [mem_cons, not_or] at h
    rw [insertAbove_cons_ne (Ne.symm h.1), ih h.2]

/-- What a caller of `split` must know: a live non-root node, the labels of its segment and of the
part it keeps, and a cut at a page boundary strictly inside the segment. -/
structure SplitOk (O : KeyOps K U D) (T : Trie K D A) (i : NodeId) (dTop dRest : D) (len : Nat)
    (k : K) : Prop where
  key : T.keyOf i = some k
  ne_root : i ≠ T.root
  pos : 0 < len
  lt : len < (O.units k).length
  page_dvd : O.page ∣ len
  label_top : O.label k = some dTop
  label_rest : O.label (O.drop len k) = some dRest

section Split

variable {O : KeyOps K U D} {T : Trie K D A} {i j p : NodeId} {dTop dRest : D} {k : K} {a : A}
  {len : Nat} {top bottom : A → A} {l : List NodeId}

section

variable (s : SplitOk O T i dTop dRest len k)
include s

theorem SplitOk.label_take : O.label (O.take len k) = some dTop := by
  have hle : O.page ≤ len := Nat.le_of_dvd s.pos s.page_dvd
  rw [← s.label_top, O.label_eq_iff, O.units_take, take_take, min_eq_left hle]
  · rw [O.units_take, length_take]; exact le_min hle (hle.trans s.lt.le)
  · exact hle.trans s.lt.le

theorem SplitOk.paged_take : O.Paged (O.take len k) := by
  have e : (O.units (O.take len k)).length = len := by
    rw [O.units_take, length_take, min_eq_left s.lt.le]
  exact ⟨by rw [e]; exact s.pos, by rw [e]; exact s.page_dvd⟩

theorem SplitOk.paged_drop (h : O.Paged k) : O.Paged (O.drop len k) := by
  have e : (O.units (O.drop len k)).length = (O.units k).length - len := by
    rw [O.units_drop, length_drop]
  refine ⟨?_, ?_⟩
  · rw [e]; exact Nat.sub_pos_of_lt s.lt
  · rw [e]; exact Nat.dvd_sub h.2 s.page_dvd

theorem SplitOk.live : T.Live i := live_of_keyOf s.key

end

/-- The fresh node stands right above `i` in every path that holds `i`. -/
theorem Below.isPath_split (b : T.Below i p) (hroot : T.root ≠ T.counter)
    (hlt : ∀ j ∈ l, j ≠ T.counter) (h : T.IsPath j l) :
    (T.split O i dTop dRest len top bottom).IsPath j (insertAbove i T.counter l) := by
  induction h with
  | root => rw [← root_split]; exact .root
  | @cons j q l hj hq h ih =>
    have ih' := ih fun x hx => hlt x (mem_cons_of_mem _ hx)
    by_cases e : j = i
    · subst e
      rw [b.parent, some.injEq] at hq
      subst hq
      rw [insertAbove_cons_self]
      refine .cons (by simpa using hj) (p := T.counter) ?_ (.cons ?_ (p := p) ?_ ih')
      · rw [b.parentOf_split, if_neg b.ne_counter, if_pos rfl]
      · simpa using hroot.symm
      · rw [b.parentOf_split, if_pos rfl]
    · rw [insertAbove_cons_ne e]
      refine .cons (by simpa using hj) (p := q) ?_ ih'
      rw [b.parentOf_split, if_neg (hlt j (by simp)), if_neg e, hq]

section

variable (h : WF O T)
include h

theorem WF.root_ne_counter : T.root ≠ T.counter :=
  (h.lt_counter h.root_live).ne

theorem WF.isPath_split (b : T.Below i p) (hl : T.IsPath j l) :
    (T.split O i dTop dRest len top bottom).IsPath j (insertAbove i T.counter l) :=
  b.isPath_split h.root_ne_counter (fun _ hx => (h.lt_counter (hl.live_of_mem hx)).ne) hl

theorem WF.isPath_split_new (b : T.Below i p) :
    (T.split O i dTop dRest len top bottom).IsPath T.counter (T.counter :: T.path p) := by
  have hp := h.isPath b.live
  have hi : i ∉ T.path p := by
    have := (IsPath.cons (h.ne_root_of_parentOf b.parent) b.parent hp).nodup
    exact (nodup_cons.mp this).1
  refine .cons (p := p) (by simpa using h.root_ne_counter.symm) ?_ ?_
  · rw [b.parentOf_split, if_pos rfl]
  · simpa [insertAbove_of_not_mem hi] using
      h.isPath_split (O := O) (T := T) (i := i) (j := p) b hp

section

variable (s : SplitOk O T i dTop dRest len k)
include s

/-- **A split keeps the trie well formed.** -/
theorem WF.split : WF O (T.split O i dTop dRest len top bottom) := by
  obtain ⟨p, b⟩ := h.below s.live s.ne_root
  have hik : (T.keyOf i).bind O.label = some dTop := by rw [s.key]; exact s.label_top
  refine ⟨?_, ?_, ?_, ?_, ?_, ?_⟩
  · rw [root_split, b.live_split]; exact .inr h.root_live
  · rw [root_split, b.parentOf_split, if_neg h.root_ne_counter, if_neg s.ne_root.symm]
    exact h.root_parent
  · intro j hj
    rw [b.counter_split]
    rcases b.live_split.mp hj with rfl | hj
    · exact Nat.lt_succ_self _
    · exact Nat.lt_succ_of_lt (h.lt_counter hj)
  · intro q d j
    rw [b.child_split, b.parentOf_split, b.keyOf_split, s.key]
    by_cases hjm : j = T.counter
    · -- the fresh node: only under `p`, at the old label of `i`
      subst hjm
      have hnone : T.child q d ≠ some T.counter := fun e =>
        h.fresh (live_of_parentOf (h.child_iff.mp e).1)
      by_cases hqm : q = T.counter
      · simp [hqm, b.parent_ne_counter, b.ne_counter]
      by_cases hqd : q = p ∧ d = dTop
      · obtain ⟨rfl, rfl⟩ := hqd
        simp [hqm, s.label_take]
      · simp only [hqm, if_false, hqd, hnone, false_iff, if_true, map_some,
          bind_some, s.label_take, some.injEq]
        rintro ⟨rfl, rfl⟩; exact hqd ⟨rfl, rfl⟩
    by_cases hji : j = i
    · -- the split node: only under the fresh one
      subst hji
      by_cases hqm : q = T.counter
      · by_cases hd : d = dRest
        · simp [hqm, hjm, hd, s.label_rest]
        · have : ¬ dRest = d := fun e => hd e.symm
          simp [hqm, hjm, hd, s.label_rest, this]
      by_cases hqd : q = p ∧ d = dTop
      · obtain ⟨rfl, rfl⟩ := hqd
        simp [hqm, hjm, Ne.symm hjm, b.parent_ne_counter.symm]
      have hno : T.child q d ≠ some j := fun e => by
        obtain ⟨e₁, e₂⟩ := h.child_iff.mp e
        rw [b.parent, some.injEq] at e₁
        rw [hik, some.injEq] at e₂
        exact hqd ⟨e₁.symm, e₂.symm⟩
      simp [hqm, hjm, hqd, hno, Ne.symm hqm]
    · rw [if_neg hjm, if_neg hji, if_neg hjm, if_neg hji, ← h.child_iff]
      by_cases hqm : q = T.counter
      · have hno : T.child q d ≠ some j := fun e => h.fresh (hqm ▸ live_of_child e)
        simp only [hno, iff_false]
        split_ifs <;> simp [Ne.symm hji]
      by_cases hqd : q = p ∧ d = dTop
      · have hno : T.child q d = some i := h.child_iff.mpr ⟨by rw [b.parent, hqd.1],
          by rw [hik, hqd.2]⟩
        rw [if_neg hqm, if_pos hqd, hno]
        simp [Ne.symm hjm, Ne.symm hji]
      · simp [hqm, hqd]
  · intro j k' hj hk'
    rw [b.keyOf_split, s.key] at hk'
    rw [root_split] at hj
    split_ifs at hk' with h₁ h₂
    · cases hk'; exact s.paged_take
    · cases hk'; exact s.paged_drop (h.paged s.ne_root s.key)
    · exact h.paged hj hk'
  · intro j hj
    rcases b.live_split.mp hj with rfl | hj
    · exact ⟨_, h.isPath_split_new b⟩
    · exact ⟨_, h.isPath_split b (h.isPath hj)⟩

theorem WF.path_split (hj : T.Live j) :
    (T.split O i dTop dRest len top bottom).path j = insertAbove i T.counter (T.path j) := by
  obtain ⟨p, b⟩ := h.below s.live s.ne_root
  exact (h.split s).path_eq (h.isPath_split b (h.isPath hj))

/-- The path to a node spells the same after a split, of this node or of any other. -/
theorem WF.spellTo_split (hj : T.Live j) :
    (T.split O i dTop dRest len top bottom).spellTo O j = T.spellTo O j := by
  obtain ⟨p, b⟩ := h.below s.live s.ne_root
  rw [spellTo, spellTo, h.path_split s hj]
  have hl := h.isPath hj
  generalize T.path j = l at hl
  induction hl with
  | root => rfl
  | @cons j q l hj' hq hl ih =>
    have hjm : j ≠ T.counter := (h.lt_counter (live_of_parentOf hq)).ne
    have ih' := ih (h.parent_live hq)
    by_cases e : j = i
    · subst e
      rw [insertAbove_cons_self, spell, spell, spell, ih', b.keyOf_split, b.keyOf_split,
        if_pos rfl, if_neg hjm, if_pos rfl, s.key]
      simp only [map_some, getD_some, O.units_take, O.units_drop,
        append_assoc, take_append_drop]
    · rw [insertAbove_cons_ne e, spell, spell, ih', b.keyOf_split, if_neg hjm, if_neg e]

theorem WF.spellTo_split_new (hp : T.parentOf i = some p) :
    (T.split O i dTop dRest len top bottom).spellTo O T.counter =
      T.spellTo O p ++ (O.units k).take len := by
  have b := h.below_of_parentOf hp
  have hp' : (T.split O i dTop dRest len top bottom).parentOf T.counter = some p := by
    rw [b.parentOf_split, if_pos rfl]
  have hk' : (T.split O i dTop dRest len top bottom).keyOf T.counter = some (O.take len k) := by
    rw [b.keyOf_split, if_pos rfl, s.key]; rfl
  rw [(h.split s).spellTo_cons hp' hk', h.spellTo_split s b.live, O.units_take]

end

end

end Split

/-! ### A new leaf -/

section AddLeaf

variable {O : KeyOps K U D} {T : Trie K D A} {i j p : NodeId} {d : D} {k : K} {a : A}

/-- What a caller of `addLeaf` must know. -/
structure LeafOk (O : KeyOps K U D) (T : Trie K D A) (p : NodeId) (d : D) (k : K) : Prop where
  live : T.Live p
  free : T.child p d = none
  label : O.label k = some d
  paged : O.Paged k

section

variable (h : WF O T)
include h

theorem WF.ne_counter (hp : T.Live p) : p ≠ T.counter := (h.lt_counter hp).ne

theorem WF.isPath_addLeaf (hp : T.Live p) (hj : T.Live j) :
    (T.addLeaf p d k a).IsPath j (T.path j) := by
  have hl := h.isPath hj
  refine hl.congr rfl fun x hx => ?_
  rw [parentOf_addLeaf (h.ne_counter hp), if_neg (h.ne_counter (hl.live_of_mem hx))]

theorem WF.isPath_addLeaf_new (hp : T.Live p) :
    (T.addLeaf p d k a).IsPath T.counter (T.counter :: T.path p) := by
  refine .cons (p := p) h.root_ne_counter.symm ?_ (h.isPath_addLeaf hp hp)
  rw [parentOf_addLeaf (h.ne_counter hp), if_pos rfl]

section

variable (s : LeafOk O T p d k)
include s

/-- **A new leaf keeps the trie well formed.** -/
theorem WF.addLeaf : WF O (T.addLeaf p d k a) := by
  have hpm := h.ne_counter s.live
  refine ⟨?_, ?_, ?_, ?_, ?_, ?_⟩
  · rw [root_addLeaf, live_addLeaf hpm]; exact .inr h.root_live
  · rw [root_addLeaf, parentOf_addLeaf hpm, if_neg h.root_ne_counter, h.root_parent]
  · intro j hj
    rcases (live_addLeaf hpm).mp hj with rfl | hj
    · exact Nat.lt_succ_self _
    · exact Nat.lt_succ_of_lt (h.lt_counter hj)
  · intro q e j
    rw [child_addLeaf hpm s.live, parentOf_addLeaf hpm, keyOf_addLeaf hpm]
    by_cases hjm : j = T.counter
    · subst hjm
      have hnone : T.child q e ≠ some T.counter := fun he =>
        h.fresh (live_of_parentOf (h.child_iff.mp he).1)
      by_cases hqm : q = T.counter
      · simp [hqm, hpm]
      by_cases hqd : q = p ∧ e = d
      · obtain ⟨rfl, rfl⟩ := hqd
        simp [hqm, s.label]
      · simp only [hqm, if_false, hqd, hnone, false_iff, if_true, bind_some, s.label,
          some.injEq]
        rintro ⟨rfl, rfl⟩; exact hqd ⟨rfl, rfl⟩
    · rw [if_neg hjm, if_neg hjm, ← h.child_iff]
      by_cases hqm : q = T.counter
      · have hno : T.child q e ≠ some j := fun he => h.fresh (hqm ▸ live_of_child he)
        rw [if_pos hqm]; simp [hno]
      · by_cases hqd : q = p ∧ e = d
        · obtain ⟨rfl, rfl⟩ := hqd
          simp [hqm, s.free, Ne.symm hjm]
        · simp [hqm, hqd]
  · intro j k' hj hk'
    rw [keyOf_addLeaf hpm] at hk'
    split_ifs at hk' with h₁
    · cases hk'; exact s.paged
    · exact h.paged hj hk'
  · intro j hj
    rcases (live_addLeaf hpm).mp hj with rfl | hj
    · exact ⟨_, h.isPath_addLeaf_new s.live⟩
    · exact ⟨_, h.isPath_addLeaf s.live hj⟩

theorem WF.path_addLeaf (hj : T.Live j) :
    (T.addLeaf p d k a).path j = T.path j :=
  (h.addLeaf s).path_eq (h.isPath_addLeaf s.live hj)

theorem WF.spellTo_addLeaf (hj : T.Live j) :
    (T.addLeaf p d k a).spellTo O j = T.spellTo O j := by
  rw [spellTo, spellTo, h.path_addLeaf s hj]
  refine spell_congr fun x hx => ?_
  rw [keyOf_addLeaf (h.ne_counter s.live), if_neg (h.ne_counter ((h.isPath hj).live_of_mem hx))]

end

end

end AddLeaf

/-! ### A leaf that leaves -/

section RemoveLeaf

variable {O : KeyOps K U D} {T : Trie K D A} {i j p : NodeId} {d : D} {k : K} {a : A}

/-- What a caller of `removeLeaf` must know. -/
structure RemoveOk (O : KeyOps K U D) (T : Trie K D A) (i : NodeId) (d : D) : Prop where
  ne_root : i ≠ T.root
  live : T.Live i
  label : (T.keyOf i).bind O.label = some d
  childless : ∀ j, T.parentOf j ≠ some i

theorem WF.isPath_removeLeaf (h : WF O T) (s : RemoveOk O T i d) (hj : T.Live j) (hji : j ≠ i) :
    (T.removeLeaf i d).IsPath j (T.path j) := by
  obtain ⟨p, b⟩ := h.below s.live s.ne_root
  have hl := h.isPath hj
  refine hl.congr (by simp) fun x hx => ?_
  have hxi : x ≠ i := by rintro rfl; exact hl.not_mem_of_childless s.childless hji hx
  rw [b.parentOf_removeLeaf, if_neg hxi]

/-- **Removing a leaf keeps the trie well formed.** -/
theorem WF.removeLeaf (h : WF O T) (s : RemoveOk O T i d) : WF O (T.removeLeaf i d) := by
  obtain ⟨p, b⟩ := h.below s.live s.ne_root
  refine ⟨?_, ?_, ?_, ?_, ?_, ?_⟩
  · rw [root_removeLeaf, b.live_removeLeaf]; exact ⟨s.ne_root.symm, h.root_live⟩
  · rw [root_removeLeaf, b.parentOf_removeLeaf, if_neg s.ne_root.symm, h.root_parent]
  · intro j hj
    rw [counter_removeLeaf]
    exact h.lt_counter (b.live_removeLeaf.mp hj).2
  · intro q e j
    rw [b.child_removeLeaf, b.parentOf_removeLeaf, b.keyOf_removeLeaf]
    by_cases hji : j = i
    · -- `i` stood only under `p` at `d`
      subst hji
      simp only [if_true, reduceCtorEq, false_and, iff_false]
      intro he
      split_ifs at he with hq
      obtain ⟨e₁, e₂⟩ := h.child_iff.mp he
      rw [b.parent, some.injEq] at e₁
      rw [s.label, some.injEq] at e₂
      exact hq (.inr ⟨e₁.symm, e₂.symm⟩)
    · rw [if_neg hji, if_neg hji, ← h.child_iff]
      by_cases hq : q = i ∨ (q = p ∧ e = d)
      · rw [if_pos hq]
        simp only [reduceCtorEq, false_iff]
        intro he
        rcases hq with rfl | ⟨rfl, rfl⟩
        · exact s.childless j (h.child_iff.mp he).1
        · rw [h.child_iff.mpr ⟨b.parent, s.label⟩, some.injEq] at he
          exact hji he.symm
      · rw [if_neg hq]
  · intro j k' hj hk'
    rw [b.keyOf_removeLeaf] at hk'
    split_ifs at hk' with h₁
    rw [root_removeLeaf] at hj
    exact h.paged hj hk'
  · intro j hj
    obtain ⟨hji, hj⟩ := b.live_removeLeaf.mp hj
    exact ⟨_, h.isPath_removeLeaf s hj hji⟩

theorem WF.path_removeLeaf (h : WF O T) (s : RemoveOk O T i d) (hj : T.Live j) (hji : j ≠ i) :
    (T.removeLeaf i d).path j = T.path j :=
  (h.removeLeaf s).path_eq (h.isPath_removeLeaf s hj hji)

theorem WF.spellTo_removeLeaf (h : WF O T) (s : RemoveOk O T i d) (hj : T.Live j) (hji : j ≠ i) :
    (T.removeLeaf i d).spellTo O j = T.spellTo O j := by
  obtain ⟨p, b⟩ := h.below s.live s.ne_root
  rw [spellTo, spellTo, h.path_removeLeaf s hj hji]
  refine spell_congr fun x hx => ?_
  have hxi : x ≠ i := by
    rintro rfl; exact (h.isPath hj).not_mem_of_childless s.childless hji hx
  rw [b.keyOf_removeLeaf, if_neg hxi]

end RemoveLeaf

end Foundation.Trie
