import SglangRuntime.Foundation.TriePath

/-!
# Foundation — visiting a trie with a stack

The loop that pops a node from a stack and pushes its children (`popOrder`).  Started at the root it
pops every node of the trie once, each after its parent (`WF.popOrder_complete`,
`WF.popOrder_parents`).
-/

namespace Foundation.Trie

variable {K U D A : Type} [DecidableEq D]

/-- The nodes in the order in which they are popped; the children are pushed in dictionary order. -/
def popOrder (T : Trie K D A) : Nat → List NodeId → List NodeId
  | 0, _ => []
  | _ + 1, [] => []
  | fuel + 1, i :: stack => i :: popOrder T fuel ((T.childIds i).reverse ++ stack)

variable {O : KeyOps K U D} {T : Trie K D A} {i p : NodeId}

/-- What holds between two iterations, with the nodes that have been popped. -/
structure Visiting (T : Trie K D A) (done stack : List NodeId) : Prop where
  nodup : (done ++ stack).Nodup
  live : ∀ x ∈ done ++ stack, T.Live x
  parent : ∀ x ∈ done ++ stack, x = T.root ∨ ∃ p ∈ done, T.parentOf x = some p
  child : ∀ p ∈ done, ∀ x, T.parentOf x = some p → x ∈ done ++ stack
  root : T.root ∈ done ++ stack

theorem Visiting.pop (h : WF O T) {done stack : List NodeId} (v : Visiting T done (i :: stack)) :
    Visiting T (done ++ [i]) ((T.childIds i).reverse ++ stack) := by
  have hmem : ∀ x, x ∈ done ++ [i] ++ ((T.childIds i).reverse ++ stack) ↔
      x ∈ done ++ i :: stack ∨ T.parentOf x = some i := fun x => by
    rw [← h.mem_childIds]
    simp only [List.mem_append, List.mem_cons, List.mem_reverse, List.mem_singleton,
      List.not_mem_nil, or_false]
    tauto
  have hi : i ∉ done := fun hi =>
    (List.nodup_append.mp v.nodup).2.2 i hi i List.mem_cons_self rfl
  -- a child of `i` has not been seen: its parent would have been popped before
  have hnew : ∀ x, T.parentOf x = some i → x ∉ done ++ i :: stack := by
    intro x hx hm
    rcases v.parent x hm with rfl | ⟨p, hp, hxp⟩
    · rw [h.root_parent] at hx
      cases hx
    · rw [hx, Option.some.injEq] at hxp
      exact hi (hxp ▸ hp)
  refine ⟨?_, fun x hx => ?_, fun x hx => ?_, fun p hp x hx => ?_, (hmem _).mpr (.inl v.root)⟩
  · have hsplit : (done ++ [i] ++ ((T.childIds i).reverse ++ stack)).Perm
        ((T.childIds i).reverse ++ (done ++ i :: stack)) := by
      have e : done ++ i :: stack = done ++ [i] ++ stack := by simp
      rw [e, ← List.append_assoc, ← List.append_assoc]
      exact (List.perm_append_comm).append_right stack
    refine hsplit.nodup_iff.mpr (List.nodup_append.mpr ⟨?_, v.nodup, ?_⟩)
    · exact List.nodup_reverse.mpr (h.nodup_childIds i)
    · rintro x hx y hy rfl
      exact hnew x (h.mem_childIds.mp (List.mem_reverse.mp hx)) hy
  · rcases (hmem x).mp hx with hx | hx
    · exact v.live x hx
    · exact live_of_parentOf hx
  · rcases (hmem x).mp hx with hx | hx
    · exact (v.parent x hx).imp_right fun ⟨p, hp, e⟩ => ⟨p, List.mem_append_left _ hp, e⟩
    · exact .inr ⟨i, List.mem_append_right _ List.mem_cons_self, hx⟩
  · rcases List.mem_append.mp hp with hp | hp
    · exact (hmem x).mpr (.inl (v.child p hp x hx))
    · rw [List.mem_singleton] at hp
      exact (hmem x).mpr (.inr (hp ▸ hx))

/-- The loop, from any state: with enough fuel it pops what is left, each node after its parent. -/
theorem Visiting.popOrder (h : WF O T) {fuel : Nat} {done stack : List NodeId}
    (v : Visiting T done stack) (hfuel : fuel + done.length ≥ T.counter) :
    (∀ x, T.Live x → x ∈ done ++ T.popOrder fuel stack) ∧
      ∀ a i b, T.popOrder fuel stack = a ++ i :: b → T.Live i ∧
        (i = T.root ∨ ∃ p, T.parentOf i = some p ∧ p ∈ done ++ a) := by
  -- once nothing is left on the stack, the popped nodes are closed under children
  have finish : ∀ {done}, Visiting T done [] → ∀ x, T.Live x → x ∈ done := by
    intro done v x hx
    refine h.induct ?_ ?_ hx
    · exact List.append_nil done ▸ v.root
    · intro i p k hp _ ih
      exact List.append_nil done ▸ v.child p ih i hp
  have hle : ∀ {done stack}, Visiting T done stack → (done ++ stack).length ≤ T.counter := by
    intro done stack v
    have hsub : done ++ stack ⊆ List.range T.counter := fun x hx =>
      List.mem_range.mpr (h.lt_counter (v.live x hx))
    simpa using (v.nodup.subperm hsub).length_le
  induction fuel generalizing done stack with
  | zero =>
    have hnil : stack = [] := by
      have := hle v
      rw [List.length_append] at this
      exact List.eq_nil_of_length_eq_zero (by omega)
    subst hnil
    refine ⟨fun x hx => List.mem_append_left _ (finish v x hx), fun a i b e => ?_⟩
    simp [Trie.popOrder] at e
  | succ fuel ih =>
    cases stack with
    | nil =>
      refine ⟨fun x hx => List.mem_append_left _ (finish v x hx), fun a i b e => ?_⟩
      simp [Trie.popOrder] at e
    | cons i stack =>
      obtain ⟨hall, hpar⟩ := ih (v.pop h) (by rw [List.length_append, List.length_singleton]; omega)
      rw [Trie.popOrder]
      refine ⟨fun x hx => ?_, fun a j b e => ?_⟩
      · have := hall x hx
        simp only [List.append_assoc, List.singleton_append] at this
        exact this
      · cases a with
        | nil =>
          rw [List.nil_append, List.cons.injEq] at e
          obtain ⟨rfl, -⟩ := e
          have hmem : i ∈ done ++ i :: stack := by simp
          refine ⟨v.live i hmem, (v.parent i hmem).imp_right ?_⟩
          rintro ⟨p, hp, e⟩
          exact ⟨p, e, List.mem_append_left _ hp⟩
        | cons y a =>
          rw [List.cons_append, List.cons.injEq] at e
          obtain ⟨rfl, e⟩ := e
          obtain ⟨hl, hp⟩ := hpar a j b e
          refine ⟨hl, hp.imp_right ?_⟩
          rintro ⟨p, hp, hm⟩
          refine ⟨p, hp, ?_⟩
          simpa using hm

theorem WF.visiting (h : WF O T) : Visiting T [] [T.root] := by
  refine ⟨List.nodup_singleton _, fun x hx => ?_, fun x hx => .inl ?_, fun p hp => ?_, by simp⟩
  · rw [List.nil_append, List.mem_singleton] at hx
    exact hx ▸ h.root_live
  · simpa using hx
  · cases hp

theorem WF.popOrder_root (h : WF O T) : (∀ x, T.Live x → x ∈ T.popOrder T.counter [T.root]) ∧
      ∀ a i b, T.popOrder T.counter [T.root] = a ++ i :: b → T.Live i ∧
        (i = T.root ∨ ∃ p, T.parentOf i = some p ∧ p ∈ a) := by
  have hfuel : T.counter + ([] : List NodeId).length ≥ T.counter := Nat.le_add_right _ _
  exact h.visiting.popOrder h hfuel

/-- Every node is popped. -/
theorem WF.popOrder_complete (h : WF O T) (hi : T.Live i) : i ∈ T.popOrder T.counter [T.root] :=
  h.popOrder_root.1 i hi

/-- Every node but the root is popped after its parent. -/
theorem WF.popOrder_parents (h : WF O T) {a b : List NodeId}
    (e : T.popOrder T.counter [T.root] = a ++ i :: b) :
    T.Live i ∧ (i = T.root ∨ ∃ p, T.parentOf i = some p ∧ p ∈ a) :=
  h.popOrder_root.2 a i b e

end Foundation.Trie
