import SglangRuntime.Router.Mirror
import Mathlib.Logic.Relation

/-!
# Router — LRU eviction of the hash tree

`evict_lru` and the runs of the tree's four updates.  Every run keeps the tree and its reverse index
(`Consistent`); an eviction ends at its cap, counts what it took, and takes no node from above one
it keeps (`run_consistent`).  Events list a worker where they say (`run_lists_iff`).

When nodes were last used is not part of the tree: an eviction takes these times as an argument.
-/

namespace SglangRuntime.KvEvents.TreeState

open Foundation Relation List

variable {s s' s'' : TreeState} {i v : NodeId}
variable (ord : SetOrder) (lastUsed : NodeId → Nat) (maxSize : Nat)

section

variable (s : TreeState)

/-- `nodes.len()` without the root. -/
def nodeCount : Nat := s.ids.card

/-- The first loop of `evict_lru`. -/
def dropEmpty : List NodeId → TreeState → TreeState
  | [], s => s
  | id :: ids, s =>
    if s.nodeCount ≤ maxSize then s
    else dropEmpty ids (if s.nodes.Live id then s.pruneCascade id else s)

/-- One node of the scan for the least recently used leaf. -/
def olderLeaf (oldest : Option NodeId) (id : NodeId) : Option NodeId :=
  if s.nodes.childIds id ≠ [] then oldest
  else match oldest with
    | none => some id
    | some cur => if lastUsed id < lastUsed cur then some id else oldest

def oldestLeaf : Option NodeId := (ord.toList s.ids).foldl (s.olderLeaf lastUsed) none

def clearWorkers (i : NodeId) : TreeState := { s with nodes := s.nodes.modifyData i fun _ => ∅ }

/-- The second loop of `evict_lru`. -/
def evictLoop : Nat → TreeState → TreeState
  | 0, s => s
  | iters + 1, s =>
    if s.nodeCount ≤ maxSize then s
    else match s.oldestLeaf ord lastUsed with
      | none => s
      | some victim => evictLoop iters ((s.clearWorkers victim).pruneCascade victim)

def evictLru : TreeState × Nat :=
  if s.nodeCount ≤ maxSize then (s, 0)
  else
    let emptyLeaves := (ord.toList s.ids).filter fun id => s.Prunable id
    let s₁ := dropEmpty maxSize emptyLeaves s
    -- `max_iters` is `nodes.len() + 1`, and the root is a node
    let s₂ := evictLoop ord lastUsed maxSize (s₁.nodeCount + 2) s₁
    (s₂, s.nodeCount - s₂.nodeCount)

/-- `by_hash.get`: an entry that a removal empties is deleted. -/
def entry (h : BlockHash) : Option (Finset NodeId) :=
  if s.byHash h = ∅ then none else some (s.byHash h)

end

/-! ### Leaves -/

theorem foldl_olderLeaf (l : List NodeId) : ∀ acc : Option NodeId,
    (∀ v, acc = some v → v ∈ s.ids ∧ s.nodes.childIds v = []) → (∀ i ∈ l, i ∈ s.ids) →
    (∃ v ∈ s.ids, s.nodes.childIds v = [] ∧ l.foldl (s.olderLeaf lastUsed) acc = some v) ∨
      acc = none ∧ ∀ i ∈ l, s.nodes.childIds i ≠ [] := by
  induction l with
  | nil =>
    intro acc hacc _
    cases acc with
    | none => exact .inr ⟨rfl, nofun⟩
    | some v => exact .inl ⟨v, (hacc v rfl).1, (hacc v rfl).2, rfl⟩
  | cons id l ih =>
    intro acc hacc hl
    rw [forall_mem_cons] at hl
    rw [foldl_cons]
    by_cases hc : s.nodes.childIds id = []
    · have hnew : ∃ v, s.olderLeaf lastUsed acc id = some v ∧ v ∈ s.ids ∧
          s.nodes.childIds v = [] := by
        cases acc with
        | none => exact ⟨id, by simp [olderLeaf, hc], hl.1, hc⟩
        | some cur =>
          by_cases hlt : lastUsed id < lastUsed cur
          · exact ⟨id, by simp [olderLeaf, hc, hlt], hl.1, hc⟩
          · exact ⟨cur, by simp [olderLeaf, hc, hlt], hacc cur rfl⟩
      obtain ⟨v, e, hv⟩ := hnew
      refine (ih _ (fun v' hv' => ?_) hl.2).imp_right fun h => ?_
      · exact Option.some.inj (e.symm.trans hv') ▸ hv
      · simp [e] at h
    · have hsame : s.olderLeaf lastUsed acc id = acc := if_pos hc
      rw [hsame]
      exact (ih acc hacc hl.2).imp_right fun h => ⟨h.1, forall_mem_cons.mpr ⟨hc, h.2⟩⟩

/-- The node farthest from the root is childless. -/
theorem Inv.exists_oldestLeaf (hs : Inv s) (hne : s.ids.Nonempty) :
    ∃ v ∈ s.ids, s.nodes.childIds v = [] ∧ s.oldestLeaf ord lastUsed = some v := by
  obtain ⟨i, hi, hmax⟩ := s.ids.exists_max_image (fun i => (s.nodes.path i).length) hne
  have hleaf : s.nodes.childIds i = [] := hs.wf.childIds_eq_nil.mpr fun j hj => ?_
  · refine (foldl_olderLeaf lastUsed (ord.toList s.ids) none nofun fun i hi =>
      ord.mem_toList.mp hi).resolve_right fun h => h.2 i (ord.mem_toList.mpr hi) hleaf
  have hle := hmax j (hs.mem_ids.mpr
    ⟨Trie.live_of_parentOf hj, hs.root ▸ hs.wf.ne_root_of_parentOf hj⟩)
  rw [hs.wf.path_cons hj, length_cons] at hle
  exact Nat.not_succ_le_self _ hle

/-! ### One victim -/

theorem workersOf_clearWorkers (j : NodeId) :
    (s.clearWorkers v).workersOf j = if j = v then ∅ else s.workersOf j := by
  rw [workersOf, clearWorkers, Trie.dataOf_modifyData]
  split_ifs
  · cases s.nodes.dataOf v <;> rfl
  · rfl

/-- Nodes are gone from the tree. -/
structure Shrunk (s s' : TreeState) : Prop where
  inv : Inv s'
  tidy : s'.Tidy
  live : ∀ {i}, s'.nodes.Live i → s.nodes.Live i
  parentOf : ∀ {i}, s'.nodes.Live i → s'.nodes.parentOf i = s.nodes.parentOf i

theorem Shrunk.refl (hs : Inv s) (ht : s.Tidy) : Shrunk s s := ⟨hs, ht, id, fun _ => rfl⟩

theorem Shrunk.trans (t : Shrunk s s') (t' : Shrunk s' s'') : Shrunk s s'' :=
  ⟨t'.inv, t'.tidy, fun hl => t.live (t'.live hl),
    fun hl => (t'.parentOf hl).trans (t.parentOf (t'.live hl))⟩

/-- A childless victim leaves the tree, with the ancestors this empties. -/
theorem Inv.evictOne (hs : Inv s) (ht : s.Tidy) (hv : v ∈ s.ids) (hc : s.nodes.childIds v = []) :
    Shrunk s ((s.clearWorkers v).pruneCascade v) ∧
      ¬ ((s.clearWorkers v).pruneCascade v).nodes.Live v := by
  obtain ⟨hl, hr⟩ := hs.mem_ids.mp hv
  have hshape : Trie.SameShape s.nodes (s.clearWorkers v).nodes :=
    Trie.SameShape.modifyData s.nodes v fun _ => ∅
  have hs₁ : Inv (s.clearWorkers v) := hs.sameShape hshape rfl
  have hc₁ : (s.clearWorkers v).nodes.childIds v = [] :=
    hs₁.wf.childIds_eq_nil.mpr fun j hj =>
      hs.wf.childIds_eq_nil.mp hc j ((hshape.parentOf j).symm.trans hj)
  have ht₁ : (s.clearWorkers v).TidyBut fun j => j = v ∨ False := by
    refine (ht.mono fun _ => .inr).sameShape hs hshape fun j hj hjv => ?_
    rwa [workersOf_clearWorkers, if_neg fun e => hjv (.inl e)] at hj
  have hw : (s.clearWorkers v).workersOf v = ∅ := by rw [workersOf_clearWorkers, if_pos rfl]
  obtain ⟨hs₂, t, ht₂⟩ := pruneCascade_spec hs₁ (hshape.live.mpr hl) hr ⟨hw, hc₁⟩ ht₁
  refine ⟨⟨hs₂, ht₂, fun hj => hshape.live.mp (t.live hj), fun hj => (t.parentOf hj).trans
    (hshape.parentOf _)⟩, fun hl₂ => ht₂ v hl₂ hr ?_ ((t.workersOf hl₂).trans hw)⟩
  refine hs₂.wf.childIds_eq_nil.mpr fun j hj => hs₁.wf.childIds_eq_nil.mp hc₁ j ?_
  rw [← t.parentOf (Trie.live_of_parentOf hj), hj]

theorem Shrunk.ids_subset (t : Shrunk s s') (hs : Inv s) : s'.ids ⊆ s.ids :=
  fun _ hi => hs.mem_ids.mpr ((t.inv.mem_ids.mp hi).imp_left t.live)

/-- Who stays keeps its ancestors. -/
theorem Shrunk.live_ancestor (t : Shrunk s s') {a : NodeId} (hl : s'.nodes.Live i)
    (ha : ReflTransGen (fun i p => s.nodes.parentOf i = some p) i a) : s'.nodes.Live a := by
  induction ha with
  | refl => exact hl
  | tail _ hp ih => exact t.inv.wf.parent_live ((t.parentOf ih).trans hp)

theorem evictLoop_spec (iters : Nat) : ∀ {s : TreeState}, Inv s → s.Tidy →
    s.nodeCount ≤ iters + maxSize →
    Shrunk s (evictLoop ord lastUsed maxSize iters s) ∧
      (evictLoop ord lastUsed maxSize iters s).nodeCount ≤ maxSize := by
  induction iters with
  | zero => exact fun hs ht hle => ⟨.refl hs ht, Nat.zero_add maxSize ▸ hle⟩
  | succ iters ih =>
    intro s hs ht hle
    rw [evictLoop]
    split_ifs with hcap
    · exact ⟨.refl hs ht, hcap⟩
    have hne : s.ids.Nonempty := Finset.card_pos.mp (Nat.zero_lt_of_lt (Nat.lt_of_not_le hcap))
    obtain ⟨v, hvm, hvc, hv⟩ := hs.exists_oldestLeaf ord lastUsed hne
    obtain ⟨t₁, hgone⟩ := hs.evictOne ht hvm hvc
    have hlt : ((s.clearWorkers v).pruneCascade v).nodeCount < s.nodeCount :=
      Finset.card_lt_card ((t₁.ids_subset hs).ssubset_of_mem_notMem hvm
        fun hm => hgone (t₁.inv.mem_ids.mp hm).1)
    obtain ⟨t₂, hle₂⟩ := ih t₁.inv t₁.tidy (by omega)
    simp only [hv]
    exact ⟨t₁.trans t₂, hle₂⟩

/-- **An eviction ends at its cap.** -/
theorem Inv.evictLru (hs : Inv s) (ht : s.Tidy) :
    Shrunk s (s.evictLru ord lastUsed maxSize).1 ∧
      (s.evictLru ord lastUsed maxSize).1.nodeCount ≤ maxSize ∧
      (s.evictLru ord lastUsed maxSize).2 =
        s.nodeCount - (s.evictLru ord lastUsed maxSize).1.nodeCount := by
  rw [TreeState.evictLru]
  split_ifs with hcap
  · exact ⟨.refl hs ht, hcap, (Nat.sub_self _).symm⟩
  -- a tidy tree has no empty leaves, so the first loop does nothing
  have hnone : (ord.toList s.ids).filter (fun id => s.Prunable id) = [] := by
    refine filter_eq_nil_iff.mpr fun i hi hp => ?_
    obtain ⟨hl, hr⟩ := hs.mem_ids.mp (ord.mem_toList.mp hi)
    exact ht i hl hr (of_decide_eq_true hp).2 (of_decide_eq_true hp).1
  simp only [hnone, dropEmpty]
  obtain ⟨t, hle⟩ := evictLoop_spec ord lastUsed maxSize (s.nodeCount + 2) hs ht (by omega)
  exact ⟨t, hle, trivial⟩

/-! ### Runs -/

/-- An update: a store, a removal or a clear of a worker, or an eviction. -/
inductive Op where
  | apply (worker : KvWorkerId) (e : KvCacheEvent)
  | evictLru (lastUsed : NodeId → Nat) (maxSize : Nat)

def step (s : TreeState) (ord : SetOrder) : Op → TreeState
  | .apply worker e => s.apply ord worker e
  | .evictLru lastUsed maxSize => (s.evictLru ord lastUsed maxSize).1

variable (ops : List (SetOrder × Op))

/-- A run from the empty tree; each operation iterates sets in an order of its own. -/
def run : TreeState := ops.foldl (fun s o => s.step o.1 o.2) new

theorem run_inv : Inv (run ops) ∧ (run ops).Tidy := by
  induction ops using reverseRecOn with
  | nil => exact ⟨.new, .new⟩
  | append_singleton ops o ih =>
    obtain ⟨hs, ht⟩ := ih
    rw [run, foldl_append]
    obtain ⟨ord, ⟨w, e⟩ | ⟨lastUsed, maxSize⟩⟩ := o
    · exact hs.apply ht ord w e
    · obtain ⟨t, -⟩ := hs.evictLru ord lastUsed maxSize ht
      exact ⟨t.inv, t.tidy⟩

/-- The tree and its reverse index. -/
structure Consistent (s : TreeState) : Prop where
  orphan : ∀ i, s.nodes.Live i → (s.nodes.parentOf i = none ↔ i = rootId)
  child : ∀ i p, s.nodes.parentOf i = some p →
    ∃ h, s.nodes.keyOf i = some [h] ∧ s.nodes.child p h = some i
  reachable : ∀ i, s.nodes.Live i →
    ReflTransGen (fun i p => s.nodes.parentOf i = some p) i rootId
  index : ∀ h nodes, s.entry h = some nodes ↔
    nodes.Nonempty ∧ ∀ i, i ∈ nodes ↔ i ≠ rootId ∧ s.nodes.keyOf i = some [h]
  leaf : ∀ i, s.nodes.Live i → i ≠ rootId → s.nodes.childIds i = [] → (s.workersOf i).Nonempty

theorem Inv.consistent (hs : Inv s) (ht : s.Tidy) : s.Consistent where
  orphan i hl := by
    constructor
    · intro hnone
      by_contra hr
      obtain ⟨p, b⟩ := hs.wf.below hl (hs.root ▸ hr)
      simp [b.parent] at hnone
    · rintro rfl
      rcases hp : s.nodes.parentOf rootId with - | p
      · rfl
      · exact absurd hs.root.symm (hs.wf.ne_root_of_parentOf hp)
  child i p hp := by
    obtain ⟨h, hk⟩ := hs.key (Trie.live_of_parentOf hp) (hs.root ▸ hs.wf.ne_root_of_parentOf hp)
    exact ⟨h, hk, hs.child_iff.mpr ⟨hp, hk⟩⟩
  reachable i hl := by
    refine hs.wf.induct (motive := fun i => ReflTransGen _ i rootId) (by rw [hs.root]) ?_ hl
    intro i p k hp _ ih
    exact .head hp ih
  index h nodes := by
    simp only [entry, Option.ite_none_left_eq_some, Option.some.injEq,
      ← Finset.nonempty_iff_ne_empty]
    constructor
    · rintro ⟨hne, rfl⟩
      exact ⟨hne, fun i => hs.index⟩
    · rintro ⟨hne, hmem⟩
      obtain rfl : s.byHash h = nodes := Finset.ext fun i => hs.index.trans (hmem i).symm
      exact ⟨hne, rfl⟩
  leaf i hl hr hc := Finset.nonempty_iff_ne_empty.mpr fun hw => ht i hl hr hc hw

/-- **No node outlives the last worker** that the tree lists. -/
theorem run_ids_eq_empty_iff : (run ops).ids = ∅ ↔ ∀ w h, ¬ (run ops).Lists w h := by
  obtain ⟨hs, ht⟩ := run_inv ops
  constructor
  · rintro he w h ⟨i, hr, hk, -⟩
    exact absurd (hs.mem_ids.mpr ⟨Trie.live_of_keyOf hk, hr⟩) (he ▸ Finset.notMem_empty i)
  · intro hno
    by_contra hne
    obtain ⟨v, hv, hc, -⟩ := hs.exists_oldestLeaf .ascending id (Finset.nonempty_of_ne_empty hne)
    obtain ⟨hl, hr⟩ := hs.mem_ids.mp hv
    obtain ⟨h, hk⟩ := hs.key hl hr
    obtain ⟨w, hw⟩ := Finset.nonempty_of_ne_empty (ht v hl hr hc)
    exact hno w h ⟨v, hr, hk, hw⟩

/-- **A worker is listed where its events say**, whatever the streams and the order of sets: at the
blocks it stored and has not removed or cleared since. -/
theorem run_lists_iff (evs : List (SetOrder × KvWorkerId × KvCacheEvent)) (w : KvWorkerId)
    (h : BlockHash) : (run (evs.map fun x => (x.1, .apply x.2.1 x.2.2))).Lists w h ↔
      h ∈ evs.foldl (fun held x => if x.2.1 = w then x.2.2.blocks held else held) ∅ := by
  induction evs using reverseRecOn with
  | nil => exact iff_of_false (not_lists_new w h) id
  | append_singleton evs x ih =>
    obtain ⟨ord, w', e⟩ := x
    obtain ⟨hs, ht⟩ := run_inv (evs.map fun x => (x.1, .apply x.2.1 x.2.2))
    rw [map_append, run, foldl_append, foldl_append, ← run]
    simp only [map_cons, map_nil, foldl_cons, foldl_nil, step]
    cases e with
    | blockStored =>
      rw [apply, (hs.insert ht ord w' _ _).2.2, ih]
      split_ifs <;> simp_all [KvCacheEvent.blocks, eq_comm]
    | blockRemoved =>
      rw [apply, lists_remove hs ht, ih]
      split_ifs <;> simp_all [KvCacheEvent.blocks, eq_comm]
    | allBlocksCleared =>
      rw [apply, lists_clearWorker hs ht, ih]
      split_ifs <;> simp_all [KvCacheEvent.blocks, eq_comm]

end SglangRuntime.KvEvents.TreeState
