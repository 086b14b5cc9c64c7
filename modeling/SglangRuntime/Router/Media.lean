import SglangRuntime.MemCache.KvEventRecorder
import SglangRuntime.Router.HashTreeInvariant

/-!
# Router — blocks on several media

An engine with a host cache stores a block on several media at once, and publishes a store and a
removal for each of them.  The pump drops the medium, and the tree keeps one set of workers for each
node: a removal on one medium takes the worker off the node whatever the others hold
(`lists_drops_demoted_block`).  As long as every removal takes the last copy, a worker is listed at
a block exactly when some medium holds it (`lists_iff_on_some_medium`).
-/

namespace SglangRuntime.KvEvents

open Foundation Function

/-- The blocks of a worker on each medium, after an event of its own. -/
def KvCacheEvent.media (held : Option String → Set BlockHash) :
    KvCacheEvent → Option String → Set BlockHash
  | .blockStored _ hashes medium => update held medium (held medium ∪ {h | h ∈ hashes})
  | .blockRemoved hashes medium => update held medium (held medium \ {h | h ∈ hashes})
  | .allBlocksCleared => fun _ => ∅

/-- The tree and what the workers hold on each medium, after any interleaving of streams whose events
meet `cond`. -/
inductive MediaRun (cond : (Option String → Set BlockHash) → KvCacheEvent → Prop) :
    TreeState → (KvWorkerId → Option String → Set BlockHash) → Prop where
  | start : MediaRun cond .new fun _ _ => ∅
  | event {s : TreeState} {held : KvWorkerId → Option String → Set BlockHash}
      (t : MediaRun cond s held) (ord : SetOrder) (w : KvWorkerId) (e : KvCacheEvent)
      (ok : cond (held w) e) : MediaRun cond (s.apply ord w e) (update held w (e.media (held w)))

/-- A removal names blocks that no other medium holds. -/
def LastCopy (held : Option String → Set BlockHash) : KvCacheEvent → Prop
  | .blockRemoved hashes medium => ∀ h ∈ hashes, ∀ medium', medium' ≠ medium → h ∉ held medium'
  | _ => True

/-- What the union of the media becomes. -/
theorem KvCacheEvent.exists_mem_media {held : Option String → Set BlockHash} {e : KvCacheEvent}
    (ok : LastCopy held e) (h : BlockHash) :
    (∃ medium, h ∈ e.media held medium) ↔ match e with
      | .blockStored _ hashes _ => (∃ medium, h ∈ held medium) ∨ h ∈ hashes
      | .blockRemoved hashes _ => (∃ medium, h ∈ held medium) ∧ h ∉ hashes
      | .allBlocksCleared => False := by
  cases e with
  | blockStored parent hashes medium =>
    simp only [media]
    constructor
    · rintro ⟨m, hm⟩
      by_cases e : m = medium
      · rw [e, update_self] at hm
        exact hm.imp (fun h => ⟨medium, h⟩) id
      · rw [update_of_ne e] at hm
        exact .inl ⟨m, hm⟩
    · rintro (⟨m, hm⟩ | hh)
      · refine ⟨m, ?_⟩
        by_cases e : m = medium
        · rw [e, update_self]
          exact .inl (e ▸ hm)
        · rwa [update_of_ne e]
      · exact ⟨medium, by rw [update_self]; exact .inr hh⟩
  | blockRemoved hashes medium =>
    simp only [media]
    constructor
    · rintro ⟨m, hm⟩
      by_cases e : m = medium
      · rw [e, update_self] at hm
        exact ⟨⟨medium, hm.1⟩, hm.2⟩
      · rw [update_of_ne e] at hm
        exact ⟨⟨m, hm⟩, fun hh => ok h hh m e hm⟩
    · rintro ⟨⟨m, hm⟩, hh⟩
      refine ⟨m, ?_⟩
      by_cases e : m = medium
      · rw [e, update_self]
        exact ⟨e ▸ hm, hh⟩
      · rwa [update_of_ne e]
  | allBlocksCleared => exact iff_of_false (fun ⟨_, hm⟩ => hm) id

/-- The tree lists the blocks that some medium holds. -/
structure ListsMedia (s : TreeState) (held : KvWorkerId → Option String → Set BlockHash) : Prop where
  inv : s.Inv
  tidy : s.Tidy
  lists : ∀ w h, s.Lists w h ↔ ∃ medium, h ∈ held w medium

variable {s : TreeState} {held : KvWorkerId → Option String → Set BlockHash}

theorem ListsMedia.apply
    (m : ListsMedia s held) (ord : SetOrder) (w : KvWorkerId) (e : KvCacheEvent)
    (ok : LastCopy (held w) e) :
    ListsMedia (s.apply ord w e) (update held w (e.media (held w))) := by
  -- the worker's own blocks follow the event, the others' stay
  have hupdate : ∀ {s' : TreeState}, (∀ h, s'.Lists w h ↔ ∃ medium, h ∈ e.media (held w) medium) →
      (∀ w' h, w' ≠ w → (s'.Lists w' h ↔ s.Lists w' h)) →
      ∀ w' h, s'.Lists w' h ↔ ∃ medium, h ∈ update held w (e.media (held w)) w' medium := by
    intro s' hw hne w' h
    by_cases ew : w' = w
    · subst ew
      rw [update_self]
      exact hw h
    · rw [update_of_ne ew, hne w' h ew, m.lists]
  cases e with
  | blockStored parent hashes medium =>
    obtain ⟨hs, ht, hlists⟩ := m.inv.insert m.tidy ord w parent hashes
    refine ⟨hs, ht, hupdate (fun h => ?_) fun w' h ew => ?_⟩
    · rw [TreeState.apply, hlists, KvCacheEvent.exists_mem_media ok, m.lists, and_iff_right rfl]
    · rw [TreeState.apply, hlists, or_iff_left fun h => ew h.1]
  | blockRemoved hashes medium =>
    obtain ⟨hs, ht, -⟩ := m.inv.remove m.tidy ord w hashes
    refine ⟨hs, ht, hupdate (fun h => ?_) fun w' h ew => ?_⟩
    · rw [TreeState.apply, TreeState.lists_remove m.inv m.tidy, KvCacheEvent.exists_mem_media ok,
        m.lists, and_iff_right rfl]
    · rw [TreeState.apply, TreeState.lists_remove m.inv m.tidy, and_iff_left fun h => ew h.1]
  | allBlocksCleared =>
    obtain ⟨hs, ht, -⟩ := m.inv.clearWorker m.tidy ord w
    refine ⟨hs, ht, hupdate (fun h => ?_) fun w' h ew => ?_⟩
    · rw [TreeState.apply, TreeState.lists_clearWorker m.inv m.tidy,
        KvCacheEvent.exists_mem_media ok]
      exact iff_of_false (fun h => h.2 rfl) id
    · rw [TreeState.apply, TreeState.lists_clearWorker m.inv m.tidy, and_iff_left ew]

theorem MediaRun.inv {cond : (Option String → Set BlockHash) → KvCacheEvent → Prop} (run : MediaRun cond s held) :
    s.Inv ∧ s.Tidy := by
  induction run with
  | start => exact ⟨.new, .new⟩
  | event _ ord w e _ ih => exact ih.1.apply ih.2 ord w e

/-- **When every removal takes the last copy, a worker is listed at a block exactly when some medium
holds it.** -/
theorem lists_iff_on_some_medium {s : TreeState}
    {held : KvWorkerId → Option String → Set BlockHash} (run : MediaRun LastCopy s held)
    (w : KvWorkerId) (h : BlockHash) : s.Lists w h ↔ ∃ medium, h ∈ held w medium := by
  have m : ListsMedia s held := by
    induction run with
    | start => exact ⟨.new, .new, fun w h => iff_of_false (TreeState.not_lists_new w h) fun ⟨_, hm⟩ => hm⟩
    | event _ ord w e ok ih => exact ih.apply ord w e ok
  exact m.lists w h

/-! ### What the engine publishes -/

/-- An event as it arrives at the router. -/
def received : KvEventRecorder.Event → KvCacheEvent
  | .blockStored e => .blockStored e.parentBlockHash e.blockHashes (some e.medium.value)
  | .blockRemoved hashes medium => .blockRemoved hashes (some medium.value)
  | .allBlocksCleared => .allBlocksCleared

/-! A node of one page is inserted on device, its backup to the host is acknowledged, and its device
copy is released: `_add_new_node`, `finish_write_through` and `_demote` of the unified tree. -/

def backedUpNode : KvEventRecorder.EventNode := ⟨[(7, [1])], none, none⟩

def demotionStream : List KvCacheEvent :=
  let inserted := KvEventRecorder.recordStore [] backedUpNode .gpu
  let backedUp := KvEventRecorder.recordStore inserted backedUpNode .cpu
  (KvEventRecorder.recordRemove backedUp backedUpNode .gpu).map received

def engine : KvWorkerId := ⟨"http://engine", 0⟩

theorem lists_drops_demoted_block : ∃ s held, MediaRun (fun _ _ => True) s held ∧
    s = demotionStream.foldl (fun s e => s.apply .ascending engine e) .new ∧
    7 ∈ held engine (some KvEventRecorder.StorageMedium.cpu.value) ∧ ¬ s.Lists engine 7 := by
  have run₀ : MediaRun (fun _ _ => True) .new fun _ _ => ∅ := .start
  have run₂ := (run₀.event .ascending engine (.blockStored none [7] (some "GPU")) trivial).event
    .ascending engine (.blockStored none [7] (some "CPU_PINNED")) trivial
  have run₃ := run₂.event .ascending engine (.blockRemoved [7] (some "GPU")) trivial
  refine ⟨_, _, run₃, rfl, ?_, ?_⟩
  · simp [KvCacheEvent.media, KvEventRecorder.StorageMedium.value]
  · intro hl
    have hoff := (TreeState.lists_remove run₂.inv.1 run₂.inv.2 .ascending [7]).mp hl
    exact hoff.2 ⟨rfl, List.mem_singleton_self 7⟩

theorem lists_iff_on_some_medium_reclaimed : ∃ s held, MediaRun LastCopy s held ∧
    (s.Lists engine 7 ↔ ∃ medium, 7 ∈ held engine medium) := by
  have run₀ : MediaRun LastCopy .new fun _ _ => ∅ := .start
  have run₁ := run₀.event .ascending engine (.blockStored none [7] (some "GPU")) trivial
  have run := run₁.event .ascending engine (.blockRemoved [7] (some "GPU")) fun h _ medium hm => by
    simp [KvCacheEvent.media, hm]
  exact ⟨_, _, run, lists_iff_on_some_medium run engine 7⟩

end SglangRuntime.KvEvents
