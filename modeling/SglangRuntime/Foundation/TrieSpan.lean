import SglangRuntime.Foundation.TrieSearch

/-!
# Foundation — the last units before a node of a trie

A walk up from a node collects segments until it has gone over a number of units (`window`).  The
number that it has really gone over (`windowLen`) ends at a node of the path or at the root
(`Reaches`), and it stays so when segments are split.  For such a number, a node is met by the walk
exactly if its whole segment lies in the last units (`Reaches.inSpan_iff`).
-/

namespace Foundation.Trie

variable {K U D A : Type} [DecidableEq D]

/-- The number of units from the root to the end of `i`. -/
def depth (O : KeyOps K U D) (T : Trie K D A) (i : NodeId) : Nat := (T.spellTo O i).length

/-- The number of units of the segment of `i`. -/
def segLen (O : KeyOps K U D) (T : Trie K D A) (i : NodeId) : Nat :=
  ((T.keyOf i).map fun k => (O.units k).length).getD 0

/-- The first nodes of a path, as long as fewer than `n` units have been passed. -/
def window (O : KeyOps K U D) (T : Trie K D A) : Nat → List NodeId → List NodeId
  | _, [] => []
  | n, i :: l => if n = 0 then [] else i :: window O T (n - T.segLen O i) l

/-- The units of the window. -/
def windowLen (O : KeyOps K U D) (T : Trie K D A) (n : Nat) (l : List NodeId) : Nat :=
  ((T.window O n l).map (T.segLen O)).sum

/-- The segment of `i` lies in the last `n` units before the end of `l`. -/
def InSpan (O : KeyOps K U D) (T : Trie K D A) (l : NodeId) (n : Nat) (i : NodeId) : Prop :=
  i ∈ T.path l ∧ T.depth O l + T.segLen O i ≤ n + T.depth O i

instance (O : KeyOps K U D) (T : Trie K D A) (l : NodeId) (n : Nat) (i : NodeId) :
    Decidable (T.InSpan O l n i) :=
  inferInstanceAs (Decidable (_ ∧ _))

/-- The last `n` units before the end of `l` start at the end of a node, or at the root. -/
def Reaches (O : KeyOps K U D) (T : Trie K D A) (l : NodeId) (n : Nat) : Prop :=
  ∃ b, (b = T.root ∨ b ∈ T.path l) ∧ T.depth O b + n = T.depth O l

variable {O : KeyOps K U D} {T : Trie K D A} {i j p l x y : NodeId} {k : K} {n : Nat}

theorem segLen_eq (hk : T.keyOf i = some k) : T.segLen O i = (O.units k).length := by
  rw [segLen, hk]
  rfl

theorem window_subset {l : List NodeId} (n : Nat) (hi : i ∈ T.window O n l) : i ∈ l := by
  induction l generalizing n with
  | nil => exact hi
  | cons j l ih =>
    rw [window] at hi
    split_ifs at hi with h0
    · cases hi
    · rcases List.mem_cons.mp hi with rfl | hi
      · exact List.mem_cons_self
      · exact List.mem_cons_of_mem _ (ih _ hi)

namespace WF

theorem depth_root (h : WF O T) : T.depth O T.root = 0 := by
  rw [depth, h.spellTo_root]
  rfl

theorem depth_cons (h : WF O T) (hp : T.parentOf i = some p) :
    T.depth O i = T.depth O p + T.segLen O i := by
  obtain ⟨k, hk⟩ := (live_of_parentOf hp).key
  rw [depth, h.spellTo_cons hp hk, List.length_append, segLen_eq hk]
  rfl

theorem segLen_pos (h : WF O T) (hi : T.Live i) (hr : i ≠ T.root) : 0 < T.segLen O i := by
  obtain ⟨k, hk⟩ := hi.key
  rw [segLen_eq hk]
  exact (h.paged hr hk).1

theorem depth_le (h : WF O T) (hl : T.Live l) (hx : x ∈ T.path l) : T.depth O x ≤ T.depth O l :=
  (h.spellTo_prefix hl hx).length_le

/-- Of two nodes of a path, one ends before the other begins. -/
theorem depth_add_segLen_le (h : WF O T) (hl : T.Live l) (hx : x = T.root ∨ x ∈ T.path l)
    (hy : y ∈ T.path l) (hlt : T.depth O x < T.depth O y) :
    T.depth O x + T.segLen O y ≤ T.depth O y := by
  have step : x ∈ T.path l → y ∈ T.path l → T.depth O x + T.segLen O y ≤ T.depth O y := by
    refine h.induct ?_ ?_ hl
    · intro hx
      rw [h.path_root] at hx
      cases hx
    · intro l p k hp hk ih hx hy
      have hpl := h.parent_live hp
      rw [h.path_cons hp, List.mem_cons] at hx hy
      rcases hy with rfl | hy
      · rcases hx with rfl | hx
        · exact absurd hlt (lt_irrefl _)
        · have := h.depth_le hpl hx
          have := h.depth_cons hp
          omega
      · rcases hx with rfl | hx
        · have := h.depth_le hpl hy
          have := h.depth_cons hp
          omega
        · exact ih hx hy
  rcases hx with rfl | hx
  · obtain ⟨-, l₂, -, hy'⟩ := (h.isPath hl).of_mem hy
    cases hy' with
    | cons _ hp _ =>
      have := h.depth_cons hp
      rw [h.depth_root]
      omega
  · exact step hx hy

/-- The nodes that a walk over `n` units meets. -/
theorem mem_window (h : WF O T) (hl : T.Live l) (n : Nat) :
    i ∈ T.window O n (T.path l) ↔ i ∈ T.path l ∧ T.depth O l < n + T.depth O i := by
  refine h.induct ?_ ?_ hl n
  · intro n
    simp [h.path_root, window]
  · intro l p k hp hk ih n
    have hpl := h.parent_live hp
    have hd := h.depth_cons hp
    rw [h.path_cons hp, window]
    rcases Nat.eq_zero_or_pos n with rfl | hn
    · rw [if_pos rfl]
      simp only [List.not_mem_nil, false_iff, not_and, Nat.zero_add, not_lt]
      intro hi
      rw [← h.path_cons hp] at hi
      exact h.depth_le (live_of_parentOf hp) hi
    · rw [if_neg hn.ne', List.mem_cons, List.mem_cons, ih]
      by_cases hil : i = l
      · subst hil
        simp only [true_or, true_and, true_iff]
        omega
      · simp only [hil, false_or]
        refine and_congr_right fun hi => ?_
        have := h.depth_le hpl hi
        omega

/-- The walk ends at a node. -/
theorem reaches_windowLen (h : WF O T) (hl : T.Live l) (n : Nat) :
    T.Reaches O l (T.windowLen O n (T.path l)) := by
  refine h.induct ?_ ?_ hl n
  · intro n
    refine ⟨T.root, .inl rfl, ?_⟩
    simp [h.path_root, windowLen, window]
  · intro l p k hp hk ih n
    have hd := h.depth_cons hp
    rw [h.path_cons hp, windowLen, window]
    rcases Nat.eq_zero_or_pos n with rfl | hn
    · refine ⟨l, .inr ?_, by simp⟩
      rw [h.path_cons hp]
      exact List.mem_cons_self
    · obtain ⟨b, hb, e⟩ := ih (n - T.segLen O l)
      refine ⟨b, hb.imp_right fun hb => ?_, ?_⟩
      · rw [h.path_cons hp]
        exact List.mem_cons_of_mem _ hb
      · rw [if_neg hn.ne', List.map_cons, List.sum_cons]
        rw [windowLen] at e
        omega

theorem windowLen_pos (h : WF O T) (hl : T.Live l) (hr : l ≠ T.root) (hn : 0 < n) :
    0 < T.windowLen O n (T.path l) := by
  obtain ⟨p, b⟩ := h.below hl hr
  have := h.segLen_pos hl hr
  rw [h.path_cons b.parent, windowLen, window, if_neg hn.ne', List.map_cons, List.sum_cons]
  omega

/-- Going over as many units as the walk has gone over meets the same nodes. -/
theorem window_windowLen (h : WF O T) (hl : T.Live l) (n : Nat) :
    T.window O (T.windowLen O n (T.path l)) (T.path l) = T.window O n (T.path l) := by
  refine h.induct ?_ ?_ hl n
  · intro n
    rw [h.path_root]
    rfl
  · intro l p k hp hk ih n
    have hpos := h.segLen_pos (live_of_parentOf hp) (h.ne_root_of_parentOf hp)
    rw [h.path_cons hp]
    rcases Nat.eq_zero_or_pos n with rfl | hn
    · simp [windowLen, window]
    · have hlen : T.windowLen O n (l :: T.path p) =
          T.segLen O l + T.windowLen O (n - T.segLen O l) (T.path p) := by
        rw [windowLen, window, if_neg hn.ne', List.map_cons, List.sum_cons]
        rfl
      rw [hlen, window, window, if_neg (by omega), if_neg hn.ne', Nat.add_sub_cancel_left, ih]

end WF

namespace Reaches

/-- A walk over a number of units that reaches goes over exactly that number. -/
theorem windowLen_eq (h : WF O T) (hl : T.Live l) (hr : T.Reaches O l n) :
    T.windowLen O n (T.path l) = n := by
  refine h.induct ?_ ?_ hl n hr
  · rintro n ⟨b, -, e⟩
    rw [h.depth_root] at e
    have : n = 0 := by omega
    rw [h.path_root, windowLen, window, this]
    rfl
  · rintro l p k hp hk ih n ⟨b, hb, e⟩
    have hd := h.depth_cons hp
    have hpl := h.parent_live hp
    rw [h.path_cons hp, windowLen, window]
    rcases Nat.eq_zero_or_pos n with rfl | hn
    · rfl
    have hb' : b = T.root ∨ b ∈ T.path p := by
      refine hb.imp_right fun hm => ?_
      rw [h.path_cons hp] at hm
      refine (List.mem_cons.mp hm).resolve_left ?_
      rintro rfl
      omega
    have hle : T.depth O b ≤ T.depth O p := by
      rcases hb' with rfl | hb'
      · rw [h.depth_root]
        exact Nat.zero_le _
      · exact h.depth_le hpl hb'
    have := ih (n - T.segLen O l) ⟨b, hb', by omega⟩
    rw [windowLen] at this
    rw [if_neg hn.ne', List.map_cons, List.sum_cons, this]
    omega

/-- **Whole segments**: a node is met exactly if it lies in the span. -/
theorem inSpan_iff (h : WF O T) (hl : T.Live l) (hr : T.Reaches O l n) :
    T.InSpan O l n i ↔ i ∈ T.path l ∧ T.depth O l < n + T.depth O i := by
  obtain ⟨b, hb, e⟩ := hr
  refine and_congr_right fun hi => ⟨fun hle => ?_, fun hlt => ?_⟩
  · have hpath := h.isPath hl
    have hne : i ≠ T.root := by
      rintro rfl
      exact hpath.root_not_mem hi
    have := h.segLen_pos (hpath.live_of_mem hi) hne
    omega
  · have := h.depth_add_segLen_le hl hb hi (by omega)
    omega

end Reaches

theorem WF.mem_window_iff (h : WF O T) (hl : T.Live l) (hr : T.Reaches O l n) :
    i ∈ T.window O n (T.path l) ↔ T.InSpan O l n i := by
  rw [h.mem_window hl, hr.inSpan_iff h hl]

/-! ### What the operations do to spans -/

/-- A trie in which the path to `l` is as before. -/
theorem Reaches.congr {T' : Trie K D A} (hr : T.Reaches O l n) (hroot : T'.root = T.root)
    (hpath : T'.path l = T.path l)
    (hspell : ∀ j, j = T.root ∨ j = l ∨ j ∈ T.path l → T'.spellTo O j = T.spellTo O j) :
    T'.Reaches O l n := by
  obtain ⟨b, hb, e⟩ := hr
  refine ⟨b, ?_, ?_⟩
  · rw [hroot, hpath]
    exact hb
  · rw [depth, depth, hspell b (by tauto), hspell l (by tauto)]
    exact e

section Split

variable {dTop dRest : D} {len : Nat} {top bottom : A → A}

theorem Reaches.split (h : WF O T) (s : SplitOk O T i dTop dRest len k) (hl : T.Live l)
    (hr : T.Reaches O l n) : (T.split O i dTop dRest len top bottom).Reaches O l n := by
  obtain ⟨b, hb, e⟩ := hr
  have hbl : T.Live b := by
    rcases hb with rfl | hb
    · exact h.root_live
    · exact (h.isPath hl).live_of_mem hb
  refine ⟨b, ?_, ?_⟩
  · rw [root_split, h.path_split s hl, mem_insertAbove]
    tauto
  · rw [depth, depth, h.spellTo_split s hbl, h.spellTo_split s hl]
    exact e

/-- A split divides a segment that lies in a span into two that do. -/
theorem WF.inSpan_split (h : WF O T) (s : SplitOk O T i dTop dRest len k) (hl : T.Live l)
    (hr : T.Reaches O l n) (hj : T.Live j) :
    (T.split O i dTop dRest len top bottom).InSpan O l n j ↔ T.InSpan O l n j := by
  have hl' : (T.split O i dTop dRest len top bottom).Live l := by
    obtain ⟨p, b⟩ := h.below s.live s.ne_root
    rw [b.live_split]
    exact .inr hl
  rw [(hr.split h s hl).inSpan_iff (h.split s) hl', hr.inSpan_iff h hl, h.path_split s hl,
    mem_insertAbove, depth, depth, h.spellTo_split s hl, h.spellTo_split s hj]
  have : j ≠ T.counter := h.ne_counter hj
  simp only [this, false_and, or_false]
  rfl

theorem WF.inSpan_split_new (h : WF O T) (s : SplitOk O T i dTop dRest len k) (hl : T.Live l)
    (n : Nat) :
    (T.split O i dTop dRest len top bottom).InSpan O l n T.counter ↔ T.InSpan O l n i := by
  obtain ⟨p, b⟩ := h.below s.live s.ne_root
  have hfresh : T.counter ∉ T.path l := fun hm => h.fresh ((h.isPath hl).live_of_mem hm)
  have hseg : (T.split O i dTop dRest len top bottom).segLen O T.counter = len := by
    have hk : (T.split O i dTop dRest len top bottom).keyOf T.counter = some (O.take len k) := by
      rw [b.keyOf_split, if_pos rfl, s.key]
      rfl
    rw [segLen_eq hk, O.units_take, List.length_take, Nat.min_eq_left s.lt.le]
  have hd : (T.split O i dTop dRest len top bottom).depth O T.counter = T.depth O p + len := by
    rw [depth, h.spellTo_split_new s b.parent, List.length_append, List.length_take,
      Nat.min_eq_left s.lt.le]
    rfl
  have hdi := h.depth_cons b.parent
  have hdl : (T.split O i dTop dRest len top bottom).depth O l = T.depth O l := by
    rw [depth, h.spellTo_split s hl]
    rfl
  rw [InSpan, InSpan, h.path_split s hl, mem_insertAbove, hseg, hd, hdl]
  simp only [hfresh, false_or, true_and]
  refine and_congr_right fun _ => ?_
  omega

end Split

end Foundation.Trie
