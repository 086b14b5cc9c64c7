import SglangRuntime.Router.HashTreeInvariant

/-!
# Router — the hash tree mirrors the workers' caches

The abstract state is the set of blocks each worker holds.  When a block hash determines its
predecessor and every worker's stream is consistent (it stores chains below blocks it holds, and
never holds a block without its predecessor), the tree stands for these sets: a lookup finds the
longest prefix that some worker holds, and the workers that hold it (`matchPrefix_mirrors`).

Under consistent streams a hash stands at one node only (`Chained.unique`), and every node lists
somebody (`Mirrors.nonempty`): a node without workers would have a childless descendant without
workers, which pruning does not leave.
-/

namespace SglangRuntime.KvEvents

open Foundation List Option

/-- The blocks of a worker after an event of its own. -/
def KvCacheEvent.blocks (held : Set BlockHash) : KvCacheEvent → Set BlockHash
  | .blockStored _ hashes _ => held ∪ {h | h ∈ hashes}
  | .blockRemoved hashes _ => held \ {h | h ∈ hashes}
  | .allBlocksCleared => ∅

/-- Each hash has the one before as its predecessor, the first one `parent`. -/
def ChainFrom (pred : BlockHash → Option BlockHash) : Option BlockHash → List BlockHash → Prop
  | _, [] => True
  | parent, h :: hs => pred h = parent ∧ ChainFrom pred (some h) hs

/-- A set of blocks with all their predecessors. -/
def Closed (pred : BlockHash → Option BlockHash) (held : Set BlockHash) : Prop :=
  ∀ h ∈ held, ∀ q, pred h = some q → q ∈ held

/-- The parent of a stored chain is none or a block held, and the chain follows it. -/
def StoresChain (pred : BlockHash → Option BlockHash) (held : Set BlockHash) : KvCacheEvent → Prop
  | .blockStored parent hashes _ => (∀ q, parent = some q → q ∈ held) ∧ ChainFrom pred parent hashes
  | _ => True

/-- The tree and what the workers hold, after any interleaving of consistent streams. -/
inductive MirrorRun (pred : BlockHash → Option BlockHash) :
    TreeState → (KvWorkerId → Set BlockHash) → Prop where
  | start : MirrorRun pred .new fun _ => ∅
  | event {s : TreeState} {held : KvWorkerId → Set BlockHash} (t : MirrorRun pred s held)
      (ord : SetOrder) (w : KvWorkerId) (e : KvCacheEvent) (stores : StoresChain pred (held w) e)
      (closed : Closed pred (e.blocks (held w))) :
      MirrorRun pred (s.apply ord w e) (Function.update held w (e.blocks (held w)))

namespace TreeState

variable {pred : BlockHash → Option BlockHash} {s s' : TreeState} {i j p : NodeId}
  {h q : BlockHash} {w : KvWorkerId} {held : KvWorkerId → Set BlockHash} {parent : Option BlockHash}

/-- `i` is a node of the hash. -/
def Carries (s : TreeState) (i : NodeId) (h : BlockHash) : Prop :=
  i ≠ rootId ∧ s.nodes.keyOf i = some [h]

/-- The node that a predecessor stands for: the root for none. -/
def Stands (s : TreeState) (p : NodeId) : Option BlockHash → Prop
  | none => p = rootId
  | some q => s.Carries p q

/-- Every node hangs below its predecessor. -/
def Chained (pred : BlockHash → Option BlockHash) (s : TreeState) : Prop :=
  ∀ i p h, s.nodes.parentOf i = some p → s.nodes.keyOf i = some [h] → s.Stands p (pred h)

theorem Inv.carries_of_parentOf (hs : Inv s) (hp : s.nodes.parentOf i = some p)
    (hk : s.nodes.keyOf i = some [h]) : s.Carries i h :=
  ⟨hs.root ▸ hs.wf.ne_root_of_parentOf hp, hk⟩

theorem Inv.parent_of_carries (hs : Inv s) (hi : s.Carries i h) : ∃ p, s.nodes.parentOf i = some p :=
  have ⟨p, b⟩ := hs.wf.below (Trie.live_of_keyOf hi.2) (hs.root ▸ hi.1)
  ⟨p, b.parent⟩

/-- A hash stands at one node at most. -/
theorem Chained.unique (hc : Chained pred s) (hs : Inv s) (hi : s.Carries i h) (hj : s.Carries j h) :
    i = j := by
  refine hs.wf.induct ?_ ?_
    (Trie.live_of_keyOf hi.2) j h hi hj
  · exact fun j h hi _ => absurd hs.root hi.1
  intro i p k hp _ ih j h hi hj
  obtain ⟨p', hp'⟩ := hs.parent_of_carries hj
  have hpp : p = p' := by
    have e := hc i p h hp hi.2
    have e' := hc j p' h hp' hj.2
    rcases hq : pred h with - | q
    · rw [hq] at e e'
      exact Eq.trans e (Eq.symm e')
    · rw [hq] at e e'
      exact ih p' q e e'
  subst hpp
  have hci := hs.child_iff.mpr ⟨hp, hi.2⟩
  rw [hs.child_iff.mpr ⟨hp', hj.2⟩] at hci
  exact (some.inj hci).symm

theorem Stands.unique (hc : Chained pred s) (hs : Inv s)
    (hi : s.Stands i parent) (hj : s.Stands j parent) : i = j := by
  rcases parent with - | q
  · exact Eq.trans hi (Eq.symm hj)
  · exact hc.unique hs hi hj

theorem Chained.thinned {off : NodeId → KvWorkerId → Prop} (hc : Chained pred s) (hs' : Inv s')
    (t : Thinned off s s') : Chained pred s' := by
  intro i p h hp hk
  have hl := Trie.live_of_parentOf hp
  have hst := hc i p h ((t.parentOf hl).symm.trans hp) ((t.keyOf hl).symm.trans hk)
  rcases hq : pred h with - | q
  · rw [hq] at hst
    exact hst
  · rw [hq] at hst
    exact ⟨hst.1, (t.keyOf (hs'.wf.parent_live hp)).trans hst.2⟩

theorem Stands.grown {on : NodeId → Prop} (g : Grown w on s s')
    (hp : s.Stands p parent) : s'.Stands p parent := by
  rcases parent with - | q
  · exact hp
  · exact ⟨hp.1, (g.keyOf (Trie.live_of_keyOf hp.2)).trans hp.2⟩

theorem Inv.live_of_stands (hs : Inv s) (hp : s.Stands p parent) : s.nodes.Live p := by
  rcases parent with - | q
  · rw [show p = rootId from hp, ← hs.root]
    exact hs.wf.root_live
  · exact Trie.live_of_keyOf hp.2

theorem Chained.insertLoop (w : KvWorkerId) (hashes : List BlockHash) : ∀ {s : TreeState}
    {p : NodeId} {parent : Option BlockHash}, Inv s → s.Tidy → Chained pred s → s.Stands p parent →
    ChainFrom pred parent hashes → Chained pred (insertLoop w hashes p s) := by
  induction hashes with
  | nil => exact fun _ _ hc _ _ => hc
  | cons h hashes ih =>
    intro s p parent hs ht hc hp hchain
    obtain ⟨s₁, child, e, hs₁, ht₁, hpc, hk, g⟩ :=
      insertLoop_cons hs ht (hs.live_of_stands hp) w h hashes
    rw [e]
    have hchild : s₁.Stands child (some h) := hs₁.carries_of_parentOf hpc hk
    refine ih hs₁ ht₁ ?_ hchild hchain.2
    intro i p' h' hp' hk'
    by_cases hic : i = child
    · -- the child hangs below the node of its predecessor
      subst hic
      obtain rfl : p' = p := some.inj (hp'.symm.trans hpc)
      obtain rfl : h' = h := by simpa using hk'.symm.trans hk
      rw [hchain.1]
      exact hp.grown g
    · have hl : s.nodes.Live i := (g.live.mp (Trie.live_of_parentOf hp')).resolve_right hic
      exact (hc i p' h' ((g.parentOf hl).symm.trans hp') ((g.keyOf hl).symm.trans hk')).grown g

/-- The tree lists exactly what the workers hold, each block below its predecessor. -/
structure Mirrors (pred : BlockHash → Option BlockHash) (s : TreeState)
    (held : KvWorkerId → Set BlockHash) : Prop where
  inv : Inv s
  tidy : s.Tidy
  chained : Chained pred s
  lists : ∀ w h, s.Lists w h ↔ h ∈ held w
  closed : ∀ w, Closed pred (held w)

namespace Mirrors

theorem new : Mirrors pred .new fun _ => ∅ where
  inv := .new
  tidy := .new
  chained i p h hp hk := by
    have hi := Inv.new.carries_of_parentOf hp hk
    exact absurd (Inv.new.index.mpr hi) (Finset.notMem_empty i)
  lists w h := iff_of_false (not_lists_new w h) id
  closed _ h hh := absurd hh id

section

variable (m : Mirrors pred s held) {H : Set BlockHash}
include m

theorem mem_workersOf (hi : s.Carries i h) : w ∈ s.workersOf i ↔ h ∈ held w := by
  rw [← m.lists]
  constructor
  · exact fun hw => ⟨i, hi.1, hi.2, hw⟩
  · rintro ⟨j, hr, hk, hw⟩
    exact m.chained.unique m.inv ⟨hr, hk⟩ hi ▸ hw

/-- A worker listed at a node is listed at its parent. -/
theorem listed_parent (hp : s.nodes.parentOf i = some p)
    (hr : p ≠ rootId) (hw : w ∈ s.workersOf i) : w ∈ s.workersOf p := by
  obtain ⟨h, hk⟩ := m.inv.key (Trie.live_of_parentOf hp)
    (m.inv.root ▸ m.inv.wf.ne_root_of_parentOf hp)
  have hheld := (m.mem_workersOf (m.inv.carries_of_parentOf hp hk)).mp hw
  have hst := m.chained i p h hp hk
  rcases hq : pred h with - | q
  · rw [hq] at hst
    exact absurd hst hr
  · rw [hq] at hst
    exact (m.mem_workersOf hst).mpr (m.closed w h hheld q hq)

/-- **Every node lists somebody.** -/
theorem nonempty (hi : s.nodes.Live i) (hr : i ≠ rootId) : (s.workersOf i).Nonempty := by
  -- paths are bounded, so a walk down from the node ends at a childless one
  induction hn : s.nodes.counter - (s.nodes.path i).length using Nat.strong_induction_on
    generalizing i with
  | _ n ih =>
    rw [Finset.nonempty_iff_ne_empty]
    intro hempty
    by_cases hc : s.nodes.childIds i = []
    · exact m.tidy i hi hr hc hempty
    obtain ⟨j, hj⟩ := exists_mem_of_ne_nil _ hc
    have hp := m.inv.wf.mem_childIds.mp hj
    have hjl := Trie.live_of_parentOf hp
    have hlt : s.nodes.counter - (s.nodes.path j).length < n := by
      have hle := m.inv.wf.length_path_le (m.inv.wf.isPath hjl)
      rw [m.inv.wf.path_cons hp, length_cons] at hle ⊢
      exact hn ▸ Nat.sub_lt_sub_left hle (Nat.lt_succ_self _)
    obtain ⟨w, hw⟩ := ih _ hlt hjl (m.inv.root ▸ m.inv.wf.ne_root_of_parentOf hp) rfl
    exact Finset.notMem_empty w (hempty ▸ m.listed_parent hp hr hw)

/-- A hash stands in the tree exactly when some worker holds the block. -/
theorem carried_iff : (∃ i, s.Carries i h) ↔ ∃ w, h ∈ held w := by
  constructor
  · rintro ⟨i, hi⟩
    obtain ⟨w, hw⟩ := m.nonempty (Trie.live_of_keyOf hi.2) hi.1
    exact ⟨w, (m.mem_workersOf hi).mp hw⟩
  · rintro ⟨w, hw⟩
    obtain ⟨i, hr, hk, -⟩ := (m.lists w h).mpr hw
    exact ⟨i, hr, hk⟩

/-! ### Runs -/

theorem lists_update {w' : KvWorkerId}
    (hw : w' = w → (s'.Lists w' h ↔ h ∈ H)) (hne : w' ≠ w → (s'.Lists w' h ↔ s.Lists w' h)) :
    s'.Lists w' h ↔ h ∈ Function.update held w H w' := by
  by_cases e : w' = w
  · rw [hw e, e, Function.update_self]
  · rw [hne e, Function.update_of_ne e, m.lists]

theorem closed_update (hH : Closed pred H)
    (w' : KvWorkerId) : Closed pred (Function.update held w H w') := by
  by_cases e : w' = w
  · rw [e, Function.update_self]
    exact hH
  · rw [Function.update_of_ne e]
    exact m.closed w'

variable (ord : SetOrder)

/-- The parent of a consistent store resolves to the node of that hash. -/
theorem stands_resolveParent {parent : Option BlockHash}
    (hparent : ∀ q, parent = some q → q ∈ held w) :
    s.Stands (s.resolveParent ord w parent) parent := by
  rcases parent with - | q
  · rfl
  obtain ⟨i, hi⟩ := m.carried_iff.mpr ⟨w, hparent q rfl⟩
  have hone : s.byHash q = {i} := by
    ext j
    rw [m.inv.index, Finset.mem_singleton]
    exact ⟨fun hj => m.chained.unique m.inv hj hi, fun e => e ▸ hi⟩
  have hlist : ord.toList (s.byHash q) = [i] := by
    have hperm := (perm_ext_iff_of_nodup (ord.nodup_toList (s.byHash q))
      (nodup_singleton i)).mpr fun j => by
        rw [ord.mem_toList, hone, Finset.mem_singleton, mem_singleton]
    exact perm_singleton.mp hperm
  rw [resolveParent, if_neg (by rw [hone]; exact Finset.singleton_ne_empty i),
    if_pos (by rw [hone]; exact Finset.card_singleton i), hlist]
  exact hi

/-- **An event of a consistent stream keeps the mirror.** -/
theorem apply (w : KvWorkerId) (e : KvCacheEvent)
    (stores : StoresChain pred (held w) e) (closed : Closed pred (e.blocks (held w))) :
    Mirrors pred (s.apply ord w e) (Function.update held w (e.blocks (held w))) := by
  cases e with
  | blockStored parent hashes medium =>
    obtain ⟨hs, ht, hlists⟩ := m.inv.insert m.tidy ord w parent hashes
    refine ⟨hs, ht, ?_, fun w' h => m.lists_update (fun e => ?_) fun e => ?_, m.closed_update closed⟩
    · rw [TreeState.apply, TreeState.insert]
      split_ifs with hnil
      · exact m.chained
      · exact m.chained.insertLoop w hashes m.inv m.tidy (m.stands_resolveParent ord stores.1)
          stores.2
    · rw [TreeState.apply, hlists, m.lists, e, and_iff_right rfl]
      rfl
    · rw [TreeState.apply, hlists, or_iff_left fun h => e h.1]
  | blockRemoved hashes medium =>
    obtain ⟨hs, ht, t⟩ := m.inv.remove m.tidy ord w hashes
    refine ⟨hs, ht, m.chained.thinned hs t, fun w' h => m.lists_update (fun e => ?_) fun e => ?_,
      m.closed_update closed⟩
    · rw [TreeState.apply, lists_remove m.inv m.tidy, m.lists, e, and_iff_right rfl]
      rfl
    · rw [TreeState.apply, lists_remove m.inv m.tidy, and_iff_left fun h => e h.1]
  | allBlocksCleared =>
    obtain ⟨hs, ht, t⟩ := m.inv.clearWorker m.tidy ord w
    refine ⟨hs, ht, m.chained.thinned hs t, fun w' h => m.lists_update (fun e => ?_) fun e => ?_,
      m.closed_update closed⟩
    · rw [TreeState.apply, lists_clearWorker m.inv m.tidy]
      exact iff_of_false (fun h => h.2 e) id
    · rw [TreeState.apply, lists_clearWorker m.inv m.tidy, and_iff_left e]

end

end Mirrors

/-! ### Lookup -/

/-- What the loop of `match_prefix` finds from the node of the predecessor: the hashes that stand in
the tree, up to the first that does not, and the node of the last one. -/
theorem Mirrors.matchLoop (m : Mirrors pred s held) (hashes : List BlockHash) :
    ∀ {p : NodeId} {parent : Option BlockHash}, s.Stands p parent → ChainFrom pred parent hashes →
    ∃ k last, s.matchLoop hashes p = (k, last) ∧ k ≤ hashes.length ∧
      (∀ h, hashes[k]? = some h → ¬ ∃ i, s.Carries i h) ∧
      (last = none ∧ k = 0 ∨ ∃ i h n, last = some i ∧ s.Carries i h ∧ k = n + 1 ∧
        hashes[n]? = some h) := by
  induction hashes with
  | nil => exact fun _ _ => ⟨0, none, rfl, le_rfl, fun h e => (nomatch e), .inl ⟨rfl, rfl⟩⟩
  | cons h hashes ih =>
    intro p parent hp hchain
    -- the node of `h`, if there is one, is the child of `p`
    have hchild : ∀ {c}, s.Carries c h → s.nodes.child p h = some c := by
      intro c hc
      obtain ⟨p', hp'⟩ := m.inv.parent_of_carries hc
      have hst := m.chained c p' h hp' hc.2
      rw [hchain.1] at hst
      exact m.inv.child_iff.mpr ⟨hst.unique m.chained m.inv hp ▸ hp', hc.2⟩
    rcases hc : s.nodes.child p h with - | c
    · refine ⟨0, none, by rw [TreeState.matchLoop, hc], Nat.zero_le _, ?_, .inl ⟨rfl, rfl⟩⟩
      rintro h' e ⟨i, hi⟩
      obtain rfl : h = h' := by simpa using e
      rw [hchild hi] at hc
      cases hc
    · obtain ⟨hpc, hkc⟩ := m.inv.child_iff.mp hc
      have hcarry := m.inv.carries_of_parentOf hpc hkc
      have hstand : s.Stands c (some h) := hcarry
      obtain ⟨k, last, e, hle, hstop, hlast⟩ := ih hstand hchain.2
      refine ⟨k + 1, some (last.getD c), by rw [TreeState.matchLoop, hc]; simp only [e],
        Nat.succ_le_succ hle, hstop, .inr ?_⟩
      rcases hlast with ⟨rfl, rfl⟩ | ⟨i, h', n, rfl, hi, rfl, hn⟩
      · exact ⟨c, h, 0, rfl, hcarry, rfl, rfl⟩
      · exact ⟨i, h', n + 1, rfl, hi, rfl, hn⟩

end TreeState

variable {pred : BlockHash → Option BlockHash}

theorem MirrorRun.mirrors {s : TreeState}
    {held : KvWorkerId → Set BlockHash} (t : MirrorRun pred s held) : TreeState.Mirrors pred s held := by
  induction t with
  | start => exact .new
  | event _ ord w e stores closed ih => exact ih.apply ord w e stores closed

/-- A worker that holds a block of a chain holds all the blocks before it. -/
theorem ChainFrom.take_subset {H : Set BlockHash}
    (hH : Closed pred H) : ∀ {chain : List BlockHash} {parent : Option BlockHash} {n : Nat}
    {h : BlockHash}, ChainFrom pred parent chain → chain[n]? = some h → h ∈ H →
    ∀ x ∈ chain.take (n + 1), x ∈ H := by
  intro chain
  induction chain with
  | nil => exact fun _ e => (nomatch e)
  | cons h₀ chain ih =>
    intro parent n h hchain hn hh x hx
    cases n with
    | zero =>
      rw [getElem?_cons_zero, some.injEq] at hn
      rw [zero_add, take_succ_cons, take_zero, mem_singleton] at hx
      rw [hx, hn]
      exact hh
    | succ n =>
      have hrest := ih hchain.2 hn hh
      rcases mem_cons.mp hx with rfl | hx
      · -- the first block is the predecessor of the second
        rcases chain with - | ⟨h₁, chain⟩
        · cases hn
        · exact hH h₁ (hrest h₁ mem_cons_self) x hchain.2.1
      · exact hrest x hx

/-- **The hash tree mirrors the workers' caches.**  A lookup from the root matches the longest prefix
of the chain that some worker holds, and reports the workers that hold it. -/
theorem matchPrefix_mirrors {pred : BlockHash → Option BlockHash} {s : TreeState}
    {held : KvWorkerId → Set BlockHash} (run : MirrorRun pred s held) (ord : SetOrder)
    {chain : List BlockHash} (hchain : ChainFrom pred none chain) :
    IsGreatest {k | k ≤ chain.length ∧ (k = 0 ∨ ∃ w, ∀ h ∈ chain.take k, h ∈ held w)}
        (s.matchPrefix ord none chain).matchedBlocks ∧
      ∀ w, w ∈ (s.matchPrefix ord none chain).workers ↔
        0 < (s.matchPrefix ord none chain).matchedBlocks ∧
          ∀ h ∈ chain.take (s.matchPrefix ord none chain).matchedBlocks, h ∈ held w := by
  have m := run.mirrors
  have hroot : s.Stands rootId none := rfl
  obtain ⟨k, last, e, hle, hstop, hlast⟩ := m.matchLoop chain hroot hchain
  have hres : s.matchPrefix ord none chain = ⟨k, (last.map s.workersOf).getD ∅⟩ := by
    rw [TreeState.matchPrefix, TreeState.matchStart, e]
  rw [hres]
  -- a worker that holds the last of some blocks holds them all
  have hwhole : ∀ {n h w}, chain[n]? = some h → (h ∈ held w ↔ ∀ x ∈ chain.take (n + 1), x ∈ held w) :=
    fun {n h w} hn => ⟨fun hh => hchain.take_subset (m.closed w) hn hh,
      fun hall => hall h (mem_of_getElem? (by rw [getElem?_take_of_lt n.lt_succ_self, hn]))⟩
  refine ⟨⟨⟨hle, ?_⟩, ?_⟩, fun w => ?_⟩
  · rcases hlast with ⟨-, hk⟩ | ⟨i, h, n, -, hi, rfl, hn⟩
    · exact .inl hk
    · obtain ⟨w, hw⟩ := m.carried_iff.mp ⟨i, hi⟩
      exact .inr ⟨w, (hwhole hn).mp hw⟩
  · rintro k' ⟨hle', hk'⟩
    by_contra hnle
    have hlt : k < k' := not_le.mp hnle
    rcases hk' with rfl | ⟨w, hw⟩
    · cases hlt
    · have hlen : k < chain.length := hlt.trans_le hle'
      refine hstop chain[k] (getElem?_eq_getElem hlen) (m.carried_iff.mpr ⟨w, hw _ ?_⟩)
      exact mem_take_iff_getElem.mpr ⟨k, lt_min hlt hlen, rfl⟩
  · rcases hlast with ⟨rfl, rfl⟩ | ⟨i, h, n, rfl, hi, rfl, hn⟩
    · simp
    · rw [map_some, getD_some, m.mem_workersOf hi, hwhole hn,
        and_iff_right n.succ_pos]

/-! Two workers store one chain of three blocks, and the first removes the last two again. -/

/-- The predecessor of a block is the block numbered before it. -/
def countingPred (h : BlockHash) : Option BlockHash := if h ≤ 1 then none else some (h - 1)

def routerA : KvWorkerId := ⟨"a", 0⟩

def routerB : KvWorkerId := ⟨"b", 0⟩

def chainStored : KvCacheEvent := .blockStored none [1, 2, 3] (some "GPU")

def tailRemoved : KvCacheEvent := .blockRemoved [2, 3] (some "GPU")

theorem chained_123 : ChainFrom countingPred none [1, 2, 3] := ⟨rfl, rfl, rfl, trivial⟩

theorem closed_123 : Closed countingPred (∅ ∪ {h | h ∈ [1, 2, 3]}) := by
  intro h hh q hq
  simp only [Set.empty_union, Set.mem_ofPred_eq, mem_cons, not_mem_nil, or_false] at hh ⊢
  rcases hh with rfl | rfl | rfl
  · cases hq
  · obtain rfl : 1 = q := some.inj hq
    exact .inl rfl
  · obtain rfl : 2 = q := some.inj hq
    exact .inr (.inl rfl)

theorem closed_1 : Closed countingPred ((∅ ∪ {h | h ∈ [1, 2, 3]}) \ {h | h ∈ [2, 3]}) := by
  rintro h ⟨hh, hout⟩ q hq
  simp only [Set.empty_union, Set.mem_ofPred_eq, mem_cons, not_mem_nil, or_false] at hh hout
  obtain rfl : h = 1 := by tauto
  cases hq

theorem matchPrefix_mirrors_two_workers : ∃ s held, MirrorRun countingPred s held ∧
    (s.matchPrefix .ascending none [1, 2, 3, 4]).matchedBlocks = 3 ∧
    ∀ w, w ∈ (s.matchPrefix .ascending none [1, 2, 3, 4]).workers ↔
      0 < (s.matchPrefix .ascending none [1, 2, 3, 4]).matchedBlocks ∧
        ∀ h ∈ [1, 2, 3, 4].take (s.matchPrefix .ascending none [1, 2, 3, 4]).matchedBlocks,
          h ∈ held w := by
  have stores : StoresChain countingPred ∅ chainStored := ⟨fun _ e => (nomatch e), chained_123⟩
  have run₀ : MirrorRun countingPred .new fun _ => ∅ := .start
  have run := ((run₀.event .ascending routerA chainStored stores closed_123).event .ascending
    routerB chainStored stores closed_123).event .ascending routerA tailRemoved trivial closed_1
  have hchain : ChainFrom countingPred none [1, 2, 3, 4] := ⟨rfl, rfl, rfl, rfl, trivial⟩
  exact ⟨_, _, run, by decide +kernel, (matchPrefix_mirrors run .ascending hchain).2⟩

end SglangRuntime.KvEvents
