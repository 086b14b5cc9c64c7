import SglangRuntime.Router.HashTreeInvariant
import SglangRuntime.Router.Pump

/-!
# Router — what the index forgets

A rank that is live, listed, has a cursor or is past the live check is one that the table of workers
or a call under way accounts for (`known`), and what waits for an attached worker carries the stamp
of its present incarnation.  `InvAt` says so for one worker; a step of another worker keeps it
(`Accounted`), so each action is looked at for its own worker only.
-/

namespace SglangRuntime.KvEvents

open Foundation List KvEventIndex

/-- The ranks that a call has marked live and not yet registered, or has unregistered and not yet
cleared. -/
def Call.held : Call → List Nat
  | .register ranks | .markDead ranks | .drainHandles ranks | .joinTasks ranks _
  | .lockCursors ranks | .clear ranks => ranks
  | .returned | .markLive _ | .subscribe _ => []

/-- The ranks of the call are live while the table of workers need not name them. -/
def Call.attaching : Call → Bool
  | .register _ | .markDead _ => true
  | _ => false

/-- `remove_worker` is under way. -/
def Call.removing : Call → Bool
  | .markDead _ | .drainHandles _ | .joinTasks _ _ | .lockCursors _ | .clear _ => true
  | _ => false

def Call.clearing : Call → Bool
  | .clear _ => true
  | _ => false

namespace KvEventIndex

variable {s s' : KvEventIndex} {url url' : String} {w : KvWorkerId} {ranks : List Nat} {a : Action}
  {rank : Nat}

section

variable (s : KvEventIndex)

/-- The ranks of a worker that the table of workers or a call under way accounts for. -/
def known (url : String) : List Nat :=
  (s.workers url).getD [] ++ (s.calls url).held

def Attached (url : String) : Prop :=
  s.workers url ≠ none ∨ (s.calls url).attaching

/-- The pump is not past the live check with an event of the worker. -/
def CanClear (url : String) : Prop :=
  ∀ p ∈ s.pump.inFlight, p.1.url ≠ url

/-- The events queued or received that are not yet checked. -/
def pending : List (WorkerEvent × Nat) := s.channel ++ s.pump.waiting

end

structure InvAt (s : KvEventIndex) (url : String) : Prop where
  live : ∀ w ∈ s.liveWorkers, w.url = url → w.dpRank ∈ s.known url ∧ s.Attached url
  flying : ∀ p, s.pump.inFlight = some p → p.1.url = url →
    p.1.dpRank ∈ s.known url ∧ p.2 = s.removals url
  listed : ∀ w h, w.url = url → s.tree.Lists w h → w.dpRank ∈ s.known url
  cursor : ∀ w c, w.url = url → s.cursors w = some c →
    w.dpRank ∈ s.known url ∧ c.2 = s.removals url
  pending : s.Attached url → ∀ p ∈ s.pending, p.1.worker.url = url → p.2 = s.removals url
  removing : (s.calls url).removing → s.workers url = none
  clearing : (s.calls url).clearing → ∀ p, s.pump.inFlight = some p → p.1.url ≠ url
  register : ∀ ranks, s.calls url = .register ranks → (s.workers url).getD [] ⊆ ranks
  absent : s.added url = false → s.workers url = none ∧ s.calls url = .returned

structure Inv (s : KvEventIndex) : Prop where
  tree : s.tree.Inv
  tidy : s.tree.Tidy
  on : ∀ url, s.InvAt url

/-- The call of the worker and its entry are the same, and what is new of it is accounted for. -/
structure Accounted (url : String) (s s' : KvEventIndex) : Prop where
  workers : s'.workers url = s.workers url
  calls : s'.calls url = s.calls url
  removals : s'.removals url = s.removals url
  added : s'.added url = s.added url
  live : ∀ w ∈ s'.liveWorkers, w.url = url → w ∈ s.liveWorkers
  flying : ∀ p, s'.pump.inFlight = some p → p.1.url = url → s.pump.inFlight = some p ∨
    p.1 ∈ s.liveWorkers ∧ p.2 = s.removals url
  listed : ∀ w h, w.url = url → s'.tree.Lists w h → s.tree.Lists w h ∨ w.dpRank ∈ s.known url
  cursor : ∀ w c, w.url = url → s'.cursors w = some c → s.cursors w = some c ∨
    w.dpRank ∈ s.known url ∧ c.2 = s.removals url
  pending : ∀ p ∈ s'.pending, p.1.worker.url = url → p ∈ s.pending ∨ p.2 = s.removals url

/-- Fields of a state that a step leaves as they are. -/
theorem Accounted.refl (url : String) (s : KvEventIndex) : Accounted url s s :=
  ⟨rfl, rfl, rfl, rfl, fun _ hw _ => hw, fun _ hp _ => .inl hp, fun _ _ _ hl => .inl hl,
    fun _ _ _ hc => .inl hc, fun _ hp _ => .inl hp⟩

theorem InvAt.not_attached (h : s.InvAt url) (hr : (s.calls url).removing)
    (ha : (s.calls url).attaching = false) : ¬ s.Attached url := by
  rw [Attached, h.removing hr, ha]
  simp

theorem InvAt.accounted (h : s.InvAt url) (q : Accounted url s s') : s'.InvAt url := by
  have hk : s'.known url = s.known url := by rw [known, known, q.workers, q.calls]
  have ha : s'.Attached url ↔ s.Attached url := by rw [Attached, Attached, q.workers, q.calls]
  constructor
  · intro w hw hu
    rw [hk, ha]
    exact h.live w (q.live w hw hu) hu
  · intro p hp hu
    rw [hk, q.removals]
    rcases q.flying p hp hu with hp | ⟨hl, hst⟩
    · exact h.flying p hp hu
    · exact ⟨(h.live _ hl hu).1, hst⟩
  · intro w b hu hl
    rw [hk]
    exact (q.listed w b hu hl).elim (h.listed w b hu) id
  · intro w c hu hc
    rw [hk, q.removals]
    exact (q.cursor w c hu hc).elim (h.cursor w c hu) id
  · intro hat p hp hu
    rw [q.removals]
    exact (q.pending p hp hu).elim (fun hp => h.pending (ha.mp hat) p hp hu) id
  · rw [q.calls, q.workers]
    exact h.removing
  · intro hc p hp hu
    rw [q.calls] at hc
    rcases q.flying p hp hu with hp | ⟨hl, -⟩
    · exact h.clearing hc p hp hu
    · -- a live worker is attached, and one that is cleared is not
      refine h.not_attached ?_ ?_ (h.live _ hl hu).2
      all_goals
        cases hcall : s.calls url <;> rw [hcall] at hc <;> first | rfl | cases hc
  · rw [q.calls, q.workers]
    exact h.register
  · rw [q.added, q.workers, q.calls]
    exact h.absent

/-- What the step of a call does not touch. -/
structure Kept (s s' : KvEventIndex) : Prop where
  removals : s'.removals = s.removals
  pump : s'.pump = s.pump
  tree : s'.tree = s.tree
  cursors : s'.cursors = s.cursors
  channel : s'.channel = s.channel

/-- The call of a worker moves on to `call`. -/
structure Moves (url : String) (call : Call) (s s' : KvEventIndex) : Prop extends Kept s s' where
  calls : s'.calls url = call
  known : s.known url ⊆ s'.known url
  live : ∀ w ∈ s'.liveWorkers, w.url = url → w.dpRank ∈ s'.known url ∧ s'.Attached url
  attached : s'.Attached url → s.Attached url ∨ ∀ p ∈ s.pending, p.1.worker.url ≠ url
  removing : call.removing → s'.workers url = none
  clearing : call.clearing → s.CanClear url
  register : ∀ ranks, call = .register ranks → (s'.workers url).getD [] ⊆ ranks
  added : s'.added url

theorem InvAt.moves {call : Call} (h : s.InvAt url) (m : Moves url call s s') : s'.InvAt url where
  live := m.live
  flying p hp hu := by
    rw [m.pump] at hp
    obtain ⟨hk, hs⟩ := h.flying p hp hu
    exact ⟨m.known hk, by rw [hs, m.removals]⟩
  listed w b hu hl := m.known (h.listed w b hu (m.tree ▸ hl))
  cursor w c hu hc := by
    obtain ⟨hk, hs⟩ := h.cursor w c hu (m.cursors ▸ hc)
    exact ⟨m.known hk, by rw [hs, m.removals]⟩
  pending hat p hp hu := by
    have hp' : p ∈ s.pending := by rwa [KvEventIndex.pending, m.channel, m.pump] at hp
    rcases m.attached hat with hat | hno
    · rw [h.pending hat p hp' hu, m.removals]
    · exact absurd hu (hno p hp')
  removing := m.calls ▸ m.removing
  clearing hc p hp := m.clearing (m.calls ▸ hc) p (m.pump ▸ hp)
  register := m.calls ▸ m.register
  absent ha := absurd (ha.symm.trans m.added) Bool.false_ne_true

theorem mem_idsOf : w ∈ idsOf url ranks ↔ w.url = url ∧ w.dpRank ∈ ranks := by
  simp only [idsOf, mem_toFinset, mem_map]
  constructor
  · rintro ⟨rank, hr, rfl⟩
    exact ⟨rfl, hr⟩
  · rintro ⟨rfl, hr⟩
    exact ⟨w.dpRank, hr, rfl⟩

/-! ### The calls -/

/-- What the call of a worker does at each action, with where it stood. -/
inductive CallEffect (s : KvEventIndex) (url : String) : Action → KvEventIndex → Prop where
  | ignored {u cfg} (hc : s.calls url = .returned) :
      CallEffect s url (.addWorker u cfg) { s with added := Function.update s.added url true }
  | addWorker {u cfg} {ranks : List Nat} (hc : s.calls url = .returned) :
      CallEffect s url (.addWorker u cfg)
        ({ s with added := Function.update s.added url true }.setCall url (.markLive ranks))
  | markLive {u ranks} (hc : s.calls url = .markLive ranks) :
      CallEffect s url (.markLive u)
        ({ s with liveWorkers := s.liveWorkers ∪ idsOf url ranks }.setCall url (.register ranks))
  | register {u ranks} (hc : s.calls url = .register ranks) :
      CallEffect s url (.register u)
        ({ s with workers := Function.update s.workers url (some ranks) }.setCall url
          (.subscribe ranks))
  | subscribe {u ranks} {handles running : Finset KvWorkerId} (hc : s.calls url = .subscribe ranks) :
      CallEffect s url (.subscribe u)
        ({ s with handles := handles, running := running }.setCall url .returned)
  | unknown {u} (hc : s.calls url = .returned) (hw : s.workers url = none) :
      CallEffect s url (.removeWorker u) (s.removeReturned url)
  | removeWorker {u ranks} (hc : s.calls url = .returned) (hw : s.workers url = some ranks) :
      CallEffect s url (.removeWorker u)
        ({ s with workers := Function.update s.workers url none }.setCall url (.markDead ranks))
  | markDead {u ranks} (hc : s.calls url = .markDead ranks) :
      CallEffect s url (.markDead u)
        ({ s with liveWorkers := s.liveWorkers \ idsOf url ranks }.setCall url
          (.drainHandles ranks))
  | drainHandles {u ranks tasks} {handles : Finset KvWorkerId}
      (hc : s.calls url = .drainHandles ranks) :
      CallEffect s url (.drainHandles u)
        ({ s with handles := handles }.setCall url (.joinTasks ranks tasks))
  | joinTasks {u ranks tasks} (hc : s.calls url = .joinTasks ranks tasks) :
      CallEffect s url (.joinTasks u) (s.setCall url (.lockCursors ranks))
  | lockCursors {u ranks} (hc : s.calls url = .lockCursors ranks) :
      CallEffect s url (.lockCursors u)
        ({ s with cursorLock := some url }.setCall url (.clear ranks))
  | clear {u ord rank ranks} (hc : s.calls url = .clear (rank :: ranks)) :
      CallEffect s url (.clear u ord)
        ({ s with
          tree := s.tree.clearWorker ord ⟨url, rank⟩
          cursors := Function.update s.cursors ⟨url, rank⟩ none }.setCall url (.clear ranks))
  | unlock {u} (hc : s.calls url = .clear []) :
      CallEffect s url (.unlock u) ({ s with cursorLock := none }.removeReturned url)

theorem callEffect (hstep : s.callStep url a = some s') : CallEffect s url a s' := by
  cases a with
  | addWorker _ cfg =>
    simp only [callStep] at hstep
    split at hstep
    · next hc =>
      split at hstep
      · cases hstep
        exact .ignored hc
      next ranks _ =>
      cases hstep
      split
      · exact .ignored hc
      · exact .addWorker hc
    · cases hstep
  | removeWorker _ =>
    simp only [callStep] at hstep
    split at hstep
    · next hc =>
      split at hstep <;> cases hstep
      · exact .unknown hc ‹_›
      · exact .removeWorker hc ‹_›
    · cases hstep
  | joinTasks _ | lockCursors _ =>
    simp only [callStep] at hstep
    split at hstep
    · next hc =>
      split at hstep <;> cases hstep
      constructor
      exact hc
    · cases hstep
  | markLive _ | register _ | subscribe _ | markDead _ | drainHandles _ | clear _ _ | unlock _ =>
    simp only [callStep] at hstep
    split at hstep
    · next hc =>
      cases hstep
      constructor
      exact hc
    · cases hstep
  | _ => cases hstep

theorem Inv.accounted_callEffect (h : Inv s) (he : CallEffect s url a s')
    (hne : url' ≠ url) : Accounted url' s s' := by
  cases he with
  | markLive hc =>
    refine { Accounted.refl url' s with
             calls := Function.update_of_ne hne _ _, live := fun w hw hu => ?_ }
    rcases Finset.mem_union.mp hw with hw | hw
    · exact hw
    · exact absurd (hu.symm.trans (mem_idsOf.mp hw).1) hne
  | markDead hc =>
    exact { Accounted.refl url' s with
            calls := Function.update_of_ne hne _ _, live := fun w hw _ => (Finset.mem_sdiff.mp hw).1 }
  | @clear _ ord rank ranks hc =>
    refine { Accounted.refl url' s with
             calls := Function.update_of_ne hne _ _, listed := fun w b _ hl => .inl ?_,
             cursor := fun w c hu hcur => .inl ?_ }
    · exact ((TreeState.lists_clearWorker h.tree h.tidy ord).mp hl).1
    · have hw : w ≠ ⟨url, rank⟩ := fun e => hne (by rw [← hu, e])
      simpa only [setCall, Function.update_of_ne hw] using hcur
  | _ =>
    refine { Accounted.refl url' s with workers := ?_, calls := ?_, removals := ?_, added := ?_ } <;>
      simp [setCall, removeReturned, Function.update_of_ne hne]

/-- No event of an earlier incarnation waits, and no registered rank is left out. -/
def CanAttach (s : KvEventIndex) (url : String) : Prop :=
  (s.workers url = none → ∀ p ∈ s.pending, p.1.worker.url ≠ url) ∧
    ∀ rank ∈ (s.workers url).getD [], rank ∈ (s.calls url).ranks

/-- Nothing that the worker still has in the index, so nothing is left to forget. -/
theorem InvAt.removeReturned (h : s.InvAt url) (hw : s.workers url = none)
    (hh : (s.calls url).held = []) : (s.removeReturned url).InvAt url := by
  have hk : ∀ rank, rank ∉ s.known url := by simp [known, hw, hh]
  have hc : (s.removeReturned url).calls url = .returned := Function.update_self _ _ _
  have hna : ¬ (s.removeReturned url).Attached url := by
    rw [Attached, hc]
    simp only [Call.attaching, Bool.false_eq_true, or_false, not_not]
    exact hw
  constructor
  · exact fun w hl hu => absurd (h.live w hl hu).1 (hk _)
  · exact fun p hp hu => absurd (h.flying p hp hu).1 (hk _)
  · exact fun w b hu hl => absurd (h.listed w b hu hl) (hk _)
  · exact fun w c hu hcur => absurd (h.cursor w c hu hcur).1 (hk _)
  · exact fun hat => absurd hat hna
  · rw [hc]
    nofun
  · rw [hc]
    nofun
  · rw [hc]
    nofun
  · exact fun _ => ⟨hw, hc⟩

/-- `remove_worker` clears a rank. -/
theorem Inv.clear {ord : SetOrder} (h : Inv s) (hc : s.calls url = .clear (rank :: ranks)) :
    ({ s with
      tree := s.tree.clearWorker ord ⟨url, rank⟩
      cursors := Function.update s.cursors ⟨url, rank⟩ none }.setCall url
        (.clear ranks)).InvAt url := by
  have hu := h.on url
  have hw : s.workers url = none := hu.removing (by rw [hc]; rfl)
  have hna : ¬ s.Attached url := hu.not_attached (by rw [hc]; rfl) (by rw [hc]; rfl)
  have hk : s.known url = rank :: ranks := by simp [known, hw, hc, Call.held]
  generalize hs' : setCall _ _ _ = s'
  have hc' : s'.calls url = .clear ranks := by rw [← hs']; exact Function.update_self _ _ _
  have hw' : s'.workers url = none := by rw [← hs']; exact hw
  have hk' : s'.known url = ranks := by simp [known, hw', hc', Call.held]
  have hquiet := hu.clearing (by rw [hc]; rfl)
  have hrest : ∀ w : KvWorkerId, w.url = url → w ≠ ⟨url, rank⟩ → w.dpRank ∈ s.known url → w.dpRank ∈ ranks := by
    rintro ⟨u, r⟩ rfl hne hr
    rw [hk] at hr
    exact (mem_cons.mp hr).resolve_left fun e => hne (congrArg _ e)
  subst hs'
  constructor
  · exact fun w hl hu' => absurd (hu.live w hl hu').2 hna
  · exact fun p hp hu' => absurd hu' (hquiet p hp)
  · intro w b hu' hl
    obtain ⟨hl, hne⟩ := (TreeState.lists_clearWorker h.tree h.tidy ord).mp hl
    rw [hk']
    exact hrest w hu' hne (hu.listed w b hu' hl)
  · intro w c hu' hcur
    have hne : w ≠ ⟨url, rank⟩ := by
      rintro rfl
      simp [setCall] at hcur
    have hcur' : s.cursors w = some c := by
      simpa only [setCall, Function.update_of_ne hne] using hcur
    obtain ⟨hr, hst⟩ := hu.cursor w c hu' hcur'
    rw [hk']
    exact ⟨hrest w hu' hne hr, hst⟩
  · intro hat
    simp [Attached, hw', hc', Call.attaching] at hat
  · exact fun _ => hw'
  · exact fun _ => hquiet
  · rw [hc']
    exact fun _ e => nomatch e
  · intro ha
    exact absurd ((hu.absent ha).2) (by rw [hc]; nofun)

section

variable (h : s.InvAt url) {ranks : List Nat}
include h

theorem InvAt.added (hc : s.calls url ≠ .returned) : s.added url := by
  by_contra ha
  exact hc (h.absent (Bool.eq_false_iff.mpr ha)).2

/-- A call goes on with the same ranks in hand. -/
theorem InvAt.advance {call : Call} {handles running : Finset KvWorkerId} {lock : Option String}
    {added : String → Bool} (hheld : call.held = (s.calls url).held)
    (hattach : call.attaching = (s.calls url).attaching)
    (hremove : call.removing = (s.calls url).removing)
    (hclear : call.clearing → s.CanClear url) (hregister : ∀ ranks, call ≠ .register ranks)
    (hadded : added url) :
    ({ s with handles := handles, running := running, cursorLock := lock,
              added := added }.setCall url call).InvAt url := by
  generalize hs' : setCall _ _ _ = s'
  have hc : s'.calls url = call := by rw [← hs']; exact Function.update_self _ _ _
  have hw : s'.workers url = s.workers url := by rw [← hs']; rfl
  have hk : s'.known url = s.known url := by rw [known, known, hc, hw, hheld]
  have ha : s'.Attached url ↔ s.Attached url := by rw [Attached, Attached, hc, hw, hattach]
  subst hs'
  refine h.moves { toKept := ⟨rfl, rfl, rfl, rfl, rfl⟩, calls := Function.update_self _ _ _,
                   known := hk.symm ▸ List.Subset.refl _, live := ?_,
                   attached := fun hat => .inl (ha.mp hat), removing := hremove ▸ h.removing,
                   clearing := hclear, register := fun ranks e => absurd e (hregister ranks),
                   added := hadded }
  rw [hk, ha]
  exact h.live

theorem InvAt.markLive (hc : s.calls url = .markLive ranks) (hcan : s.CanAttach url) :
    ({ s with liveWorkers := s.liveWorkers ∪ idsOf url ranks }.setCall url
      (.register ranks)).InvAt url := by
  have hc' : ({ s with liveWorkers := s.liveWorkers ∪ idsOf url ranks }.setCall url
      (.register ranks)).calls url = .register ranks := Function.update_self _ _ _
  have hadd := h.added (by rw [hc]; nofun)
  have hknown : ∀ rank ∈ s.known url, rank ∈ (s.workers url).getD [] := by
    simp [known, hc, Call.held]
  refine h.moves { toKept := ⟨rfl, rfl, rfl, rfl, rfl⟩, calls := Function.update_self _ _ _,
                   known := ?_, live := ?_, attached := ?_, removing := nofun, clearing := nofun,
                   register := ?_, added := hadd }
  · intro rank hr
    exact mem_append_left _ (hknown rank hr)
  · intro w hw hu
    refine ⟨?_, .inr (by rw [hc']; rfl)⟩
    rw [known, hc']
    rcases Finset.mem_union.mp hw with hw | hw
    · exact mem_append_left _ (hknown _ (h.live w hw hu).1)
    · exact mem_append_right _ (mem_idsOf.mp hw).2
  · intro _
    by_cases hw : s.workers url = none
    · exact .inr (hcan.1 hw)
    · exact .inl (.inl hw)
  · rintro _ ⟨⟩
    have hsub := hcan.2
    rw [hc] at hsub
    exact hsub

theorem InvAt.registered (hc : s.calls url = .register ranks) :
    ({ s with workers := Function.update s.workers url (some ranks) }.setCall url
      (.subscribe ranks)).InvAt url := by
  generalize hs' : setCall _ _ _ = s'
  have hw' : s'.workers url = some ranks := by rw [← hs']; exact Function.update_self _ _ _
  have hadd := h.added (by rw [hc]; nofun)
  -- the entry that is overwritten names no rank that the new one lacks
  have hk : s.known url ⊆ s'.known url := by
    intro rank hr
    rw [known, hc] at hr
    rw [known, hw']
    rcases mem_append.mp hr with hr | hr
    · exact mem_append_left _ (h.register ranks hc hr)
    · exact mem_append_left _ hr
  have hat : s'.Attached url := .inl (by rw [hw']; exact Option.some_ne_none _)
  subst hs'
  exact h.moves { toKept := ⟨rfl, rfl, rfl, rfl, rfl⟩, calls := Function.update_self _ _ _,
                  known := hk, live := fun w hw hu => ⟨hk (h.live w hw hu).1, hat⟩,
                  attached := fun _ => .inl (.inr (by rw [hc]; rfl)), removing := nofun,
                  clearing := nofun, register := nofun, added := hadd }

theorem InvAt.removeWorker (hc : s.calls url = .returned) (hw : s.workers url = some ranks) :
    ({ s with workers := Function.update s.workers url none }.setCall url
      (.markDead ranks)).InvAt url := by
  generalize hs' : setCall _ _ _ = s'
  have hc' : s'.calls url = .markDead ranks := by rw [← hs']; exact Function.update_self _ _ _
  have hw' : s'.workers url = none := by rw [← hs']; exact Function.update_self _ _ _
  have hk : s.known url = s'.known url := by simp [known, hc, hw, hc', hw', Call.held]
  have hat : s'.Attached url := .inr (by rw [hc']; rfl)
  subst hs'
  refine h.moves { toKept := ⟨rfl, rfl, rfl, rfl, rfl⟩, calls := Function.update_self _ _ _,
                   known := hk ▸ List.Subset.refl _,
                   live := fun w hl hu => ⟨hk ▸ (h.live w hl hu).1, hat⟩,
                   attached := fun _ => .inl (.inl (by rw [hw]; exact Option.some_ne_none _)),
                   removing := fun _ => hw', clearing := nofun, register := nofun, added := ?_ }
  by_contra ha
  have := (h.absent (Bool.eq_false_iff.mpr ha)).1
  rw [hw] at this
  cases this

theorem InvAt.markDead (hc : s.calls url = .markDead ranks) :
    ({ s with liveWorkers := s.liveWorkers \ idsOf url ranks }.setCall url
      (.drainHandles ranks)).InvAt url := by
  have hw : s.workers url = none := h.removing (by rw [hc]; rfl)
  have hadd := h.added (by rw [hc]; nofun)
  have hks : s.known url = ranks := by simp [known, hc, hw, Call.held]
  generalize hs' : setCall _ _ _ = s'
  have hc' : s'.calls url = .drainHandles ranks := by rw [← hs']; exact Function.update_self _ _ _
  have hw' : s'.workers url = none := by rw [← hs']; exact hw
  have hk : s.known url = s'.known url := by rw [hks, known, hc', hw']; rfl
  subst hs'
  refine h.moves { toKept := ⟨rfl, rfl, rfl, rfl, rfl⟩, calls := Function.update_self _ _ _,
                   known := hk ▸ List.Subset.refl _, live := ?_,
                   attached := fun _ => .inl (.inr (by rw [hc]; rfl)), removing := fun _ => hw',
                   clearing := nofun, register := nofun, added := hadd }
  -- every live rank of the worker is one of the call's
  intro w hl hu
  obtain ⟨hl, hno⟩ := Finset.mem_sdiff.mp hl
  exact absurd (mem_idsOf.mpr ⟨hu, hks ▸ (h.live w hl hu).1⟩) hno

end

section

variable (h : Inv s)
include h

theorem Inv.invAt_callEffect (he : CallEffect s url a s')
    (hlive : (∃ u, a = .markLive u) → s.CanAttach url)
    (hclear : (∃ u, a = .lockCursors u) → s.CanClear url) : s'.InvAt url := by
  have hu := h.on url
  cases he with
  | ignored hc =>
    refine ⟨hu.live, hu.flying, hu.listed, hu.cursor, hu.pending, hu.removing, hu.clearing,
      hu.register, fun ha => ?_⟩
    simp at ha
  | addWorker hc =>
    exact hu.advance (by rw [hc]; rfl) (by rw [hc]; rfl) (by rw [hc]; rfl) nofun nofun
      (Function.update_self _ _ _)
  | markLive hc => exact hu.markLive hc (hlive ⟨_, rfl⟩)
  | register hc => exact hu.registered hc
  | subscribe hc =>
    exact hu.advance (by rw [hc]; rfl) (by rw [hc]; rfl) (by rw [hc]; rfl) nofun nofun
      (hu.added (by rw [hc]; nofun))
  | unknown hc hw => exact hu.removeReturned hw (by rw [hc]; rfl)
  | removeWorker hc hw => exact hu.removeWorker hc hw
  | markDead hc => exact hu.markDead hc
  | drainHandles hc | joinTasks hc =>
    exact hu.advance (by rw [hc]; rfl) (by rw [hc]; rfl) (by rw [hc]; rfl) nofun nofun
      (hu.added (by rw [hc]; nofun))
  | lockCursors hc =>
    exact hu.advance (by rw [hc]; rfl) (by rw [hc]; rfl) (by rw [hc]; rfl)
      (fun _ => hclear ⟨_, rfl⟩) nofun (hu.added (by rw [hc]; nofun))
  | clear hc => exact h.clear hc
  | unlock hc =>
    refine InvAt.removeReturned ?_ (hu.removing (by rw [hc]; rfl)) (by rw [hc]; rfl)
    exact hu.accounted { Accounted.refl url s with }

theorem Inv.callStep (hstep : s.callStep url a = some s')
    (hlive : (∃ u, a = .markLive u) → s.CanAttach url)
    (hclear : (∃ u, a = .lockCursors u) → s.CanClear url) : Inv s' := by
  have he := callEffect hstep
  have htree : s'.tree.Inv ∧ s'.tree.Tidy := by
    cases he with
    | clear hc =>
      obtain ⟨hi, ht, -⟩ := h.tree.clearWorker h.tidy _ _
      exact ⟨hi, ht⟩
    | _ => exact ⟨h.tree, h.tidy⟩
  refine ⟨htree.1, htree.2, fun url' => ?_⟩
  by_cases e : url' = url
  · rw [e]
    exact h.invAt_callEffect he hlive hclear
  · exact (h.on url').accounted (h.accounted_callEffect he e)

/-! ### The pump and the subscriber tasks -/

/-- A step that leaves the calls and the tables of workers as they are. -/
theorem Inv.of_accounted (htree : s'.tree.Inv ∧ s'.tree.Tidy)
    (q : ∀ url, Accounted url s s') : Inv s' :=
  ⟨htree.1, htree.2, fun url => (h.on url).accounted (q url)⟩

theorem Inv.pumpStep (hstep : s.pumpStep a = some s') : Inv s' := by
  cases a with
  | receive =>
    simp only [KvEventIndex.pumpStep] at hstep
    split at hstep
    · next ev stamp channel hp hch =>
      cases hstep
      refine h.of_accounted ⟨h.tree, h.tidy⟩ fun url => { Accounted.refl url s with
        flying := fun _ hp _ => (nomatch hp), pending := fun p hmem _ => .inl ?_ }
      simp only [pending, PumpState.waiting, mem_append, mem_singleton] at hmem
      rw [pending, hch, cons_append, mem_cons]
      exact hmem.symm.imp_right (mem_append_left _)
    · cases hstep
  | checkLive =>
    simp only [KvEventIndex.pumpStep] at hstep
    split at hstep
    · next ev stamp hpump =>
      cases hstep
      refine h.of_accounted ⟨h.tree, h.tidy⟩ fun url => { Accounted.refl url s with
        flying := fun p hp hu => .inr ?_, pending := ?_ }
      · -- the event that waited carries the stamp of the incarnation that is live
        split_ifs at hp with hl
        · cases hp
          refine ⟨hl, (h.on url).pending ((h.on url).live _ hl hu).2 (ev, stamp) ?_ hu⟩
          rw [pending, hpump]
          exact mem_append_right _ (mem_singleton_self _)
        · cases hp
      · intro p hp _
        refine .inl (mem_append_left _ ?_)
        simp only [pending] at hp
        split_ifs at hp <;> simpa [PumpState.waiting] using hp
    · cases hstep
  | resetCursor =>
    simp only [KvEventIndex.pumpStep] at hstep
    split at hstep
    · next worker stamp hpump =>
      split at hstep <;> cases hstep
      refine h.of_accounted ⟨h.tree, h.tidy⟩ fun url => { Accounted.refl url s with
        flying := fun _ hp _ => (nomatch hp), cursor := fun w c _ hcur => .inl ?_, pending := ?_ }
      · by_cases e : w = worker
        · simp [e] at hcur
        · simpa only [Function.update_of_ne e] using hcur
      · exact fun p hp _ => .inl (by simpa [pending, hpump, PumpState.waiting] using hp)
    · cases hstep
  | checkCursor =>
    simp only [KvEventIndex.pumpStep] at hstep
    split at hstep
    · next worker seq events stamp hpump =>
      split at hstep <;> cases hstep
      refine h.of_accounted ⟨h.tree, h.tidy⟩ fun url => { Accounted.refl url s with
        flying := fun p hp _ => .inl ?_, pending := ?_ }
      · split_ifs at hp
        · cases hp
        · rw [hpump]
          exact hp
      · intro p hp _
        refine .inl (mem_append_left _ ?_)
        simp only [pending] at hp
        split_ifs at hp <;> simpa [PumpState.waiting] using hp
    · cases hstep
  | applyEvent ord =>
    simp only [KvEventIndex.pumpStep] at hstep
    split at hstep
    · next worker seq event events stamp hpump =>
      cases hstep
      have hfly := fun url => (h.on url).flying (worker, stamp) (by rw [hpump]; rfl)
      refine h.of_accounted (h.tree.apply h.tidy ord worker event) fun url => { Accounted.refl url s with
        flying := fun p hp _ => .inl (by rw [hpump]; exact hp), listed := fun w b hu hl => ?_,
        pending := ?_ }
      · refine (h.tree.lists_apply h.tidy hl).imp_right ?_
        rintro rfl
        exact (hfly url hu).1
      · exact fun p hp _ => .inl (by simpa [pending, hpump, PumpState.waiting] using hp)
    · cases hstep
  | commitCursor =>
    simp only [KvEventIndex.pumpStep] at hstep
    split at hstep
    · next worker seq stamp hpump =>
      split at hstep <;> cases hstep
      have hfly := fun url => (h.on url).flying (worker, stamp) (by rw [hpump]; rfl)
      refine h.of_accounted ⟨h.tree, h.tidy⟩ fun url => { Accounted.refl url s with
        flying := fun _ hp _ => (nomatch hp), cursor := fun w c hu hcur => ?_, pending := ?_ }
      · by_cases e : w = worker
        · subst e
          simp only [Function.update_self, Option.some.injEq] at hcur
          subst hcur
          exact .inr (hfly url hu)
        · exact .inl (by simpa only [Function.update_of_ne e] using hcur)
      · exact fun p hp _ => .inl (by simpa [pending, hpump, PumpState.waiting] using hp)
    · cases hstep
  | _ => cases hstep

theorem Inv.taskStep (hstep : s.taskStep a = some s') : Inv s' := by
  cases a with
  | send ev =>
    simp only [KvEventIndex.taskStep] at hstep
    split at hstep <;> cases hstep
    refine h.of_accounted ⟨h.tree, h.tidy⟩ fun url => { Accounted.refl url s with pending := fun p hp hu => ?_ }
    simp only [pending, mem_append, mem_singleton] at hp ⊢
    rcases hp with (hp | rfl) | hp
    · exact .inl (.inl hp)
    · exact .inr (congrArg s.removals hu)
    · exact .inl (.inr hp)
  | exit worker =>
    cases hstep
    exact h.of_accounted ⟨h.tree, h.tidy⟩ fun url => { Accounted.refl url s with }
  | _ => cases hstep

/-! ### Runs -/

end

/-- What an action needs for the index to forget: a worker is marked live with no rank left out and
nothing of its earlier incarnations queued, and cleared while the pump handles none of its events. -/
def Calm (s : KvEventIndex) : Action → Prop
  | .markLive url => s.CanAttach url
  | .lockCursors url => s.CanClear url
  | _ => True

theorem Inv.step (h : Inv s) (hc : s.Calm a) (hstep : s.step a = some s') : Inv s' := by
  unfold KvEventIndex.step at hstep
  cases a with
  | markLive url =>
    exact h.callStep hstep (fun _ => hc) nofun
  | lockCursors url =>
    exact h.callStep hstep nofun (fun _ => hc)
  | addWorker url _ | register url | subscribe url | removeWorker url | markDead url
  | drainHandles url | joinTasks url | clear url _ | unlock url =>
    exact h.callStep hstep nofun nofun
  | send _ | exit _ => exact h.taskStep hstep
  | _ => exact h.pumpStep hstep

inductive Reach (cond : KvEventIndex → Action → Prop) : KvEventIndex → Prop where
  | start : Reach cond new
  | more {s s' : KvEventIndex} {a : Action} (run : Reach cond s) (hc : cond s a)
      (hstep : s.step a = some s') : Reach cond s'

/-- Every action of a run is calm. -/
def CalmAlong (s : KvEventIndex) : List Action → Prop
  | [] => True
  | a :: as => s.Calm a ∧ ∀ s' ∈ s.step a, s'.CalmAlong as

instance (s : KvEventIndex) (a : Action) : Decidable (s.Calm a) :=
  match a with
  | .markLive _ => inferInstanceAs (Decidable (_ ∧ _))
  | .lockCursors url => inferInstanceAs (Decidable (∀ p ∈ s.pump.inFlight, p.1.url ≠ url))
  | .addWorker _ _ | .register _ | .subscribe _ | .removeWorker _ | .markDead _ | .drainHandles _
  | .joinTasks _ | .clear _ _ | .unlock _ | .send _ | .exit _ | .receive | .checkLive
  | .resetCursor | .checkCursor | .applyEvent _ | .commitCursor => .isTrue trivial

instance decidableCalmAlong : ∀ (as : List Action) (s : KvEventIndex), Decidable (s.CalmAlong as)
  | [], _ => .isTrue trivial
  | a :: as, s =>
    have (s' : KvEventIndex) : Decidable (s'.CalmAlong as) := decidableCalmAlong as s'
    inferInstanceAs (Decidable (s.Calm a ∧ ∀ s' ∈ s.step a, s'.CalmAlong as))

theorem Reach.run {as : List Action} : ∀ {s s' : KvEventIndex}, Reach Calm s → s.CalmAlong as →
    s.run as = some s' → Reach Calm s' := by
  induction as with
  | nil =>
    intro s s' r _ hrun
    cases hrun
    exact r
  | cons a as ih =>
    intro s s' r hcalm hrun
    obtain ⟨s₁, hstep, hrun⟩ := Option.bind_eq_some_iff.mp hrun
    exact ih (r.more hcalm.1 hstep) (hcalm.2 s₁ hstep) hrun

theorem Inv.new : Inv new where
  tree := TreeState.Inv.new
  tidy := TreeState.Tidy.new
  on _ :=
    { live := fun _ hw => absurd hw (Finset.notMem_empty _)
      flying := fun _ hp => nomatch hp
      listed := fun w b _ hl => absurd hl (TreeState.not_lists_new w b)
      cursor := fun _ _ _ hc => nomatch hc
      pending := fun _ _ hp => absurd hp (not_mem_nil)
      removing := fun _ => rfl
      clearing := fun _ _ hp => nomatch hp
      register := fun _ e => nomatch e
      absent := fun _ => ⟨rfl, rfl⟩ }

theorem Reach.inv (run : Reach Calm s) : Inv s := by
  induction run with
  | start => exact .new
  | more _ hc hstep ih => exact ih.step hc hstep

theorem InvAt.forgotten (h : s.InvAt url) (ha : s.added url = false) (rank : Nat) :
    (∀ b, ¬ s.tree.Lists ⟨url, rank⟩ b) ∧ s.cursors ⟨url, rank⟩ = none := by
  obtain ⟨hw, hc⟩ := h.absent ha
  have hk : rank ∉ s.known url := by simp [known, hw, hc, Call.held]
  refine ⟨fun b hl => hk (h.listed _ b rfl hl), Option.eq_none_iff_forall_ne_some.mpr ?_⟩
  exact fun c hcur => hk (h.cursor _ c rfl hcur).1

/-- The tree changes where `remove_worker` clears a rank and where the pump applies an event. -/
theorem tree_of_step (hstep : s.step a = some s') (hne : s'.tree ≠ s.tree) :
    (∃ url ord, a = .clear url ord) ∨
      ∃ worker seq events stamp, s.pump = .applying worker seq events stamp := by
  unfold step at hstep
  cases a with
  | clear url ord => exact .inl ⟨url, ord, rfl⟩
  | addWorker _ _ | markLive _ | lockCursors _ | register _ | subscribe _ | removeWorker _
  | markDead _ | drainHandles _ | joinTasks _ | unlock _ =>
    have he := callEffect hstep
    cases he <;> exact absurd rfl hne
  | applyEvent ord =>
    simp only [pumpStep] at hstep
    split at hstep
    · next hpump => exact .inr ⟨_, _, _, _, hpump⟩
    · cases hstep
  | _ =>
    simp only [pumpStep, taskStep] at hstep
    first
      | (cases hstep; exact absurd rfl hne)
      | (split at hstep <;> cases hstep; exact absurd rfl hne)
      | (split at hstep <;> [split at hstep; skip] <;> cases hstep; exact absurd rfl hne)

/-- **In every run that is calm, the index forgets the workers that are removed.**  After
`remove_worker` and until the next `add_worker` no node lists a rank of the worker and no cursor of
it exists; apart from the clears, the tree only changes by batches queued since `remove_worker` last
returned for their worker; and so was the batch behind every cursor. -/
theorem forgets_removed_worker (run : Reach Calm s) : (∀ url, s.added url = false → ∀ rank,
      (∀ h, ¬ s.tree.Lists ⟨url, rank⟩ h) ∧ s.cursors ⟨url, rank⟩ = none) ∧
    (∀ a s', s.step a = some s' → s'.tree ≠ s.tree → (∃ url ord, a = .clear url ord) ∨
      ∃ worker seq events, s.pump = .applying worker seq events (s.removals worker.url)) ∧
    ∀ w seq stamp, s.cursors w = some (seq, stamp) → stamp = s.removals w.url := by
  have h := run.inv
  refine ⟨fun url => (h.on url).forgotten, fun a s' hstep hne => ?_, fun w seq stamp hcur => ?_⟩
  · refine (tree_of_step hstep hne).imp_right ?_
    rintro ⟨worker, seq, events, stamp, hpump⟩
    obtain ⟨-, hst⟩ := (h.on worker.url).flying (worker, stamp) (by rw [hpump]; rfl) rfl
    exact ⟨worker, seq, events, by rw [hpump, ← hst]⟩
  · exact ((h.on w.url).cursor w (seq, stamp) rfl hcur).2

/-! ### Three races

The worker of each has one URL and publishes its first batch under the number 1. -/

def engineUrl : String := "http://engine"

def adds (dpSize : Nat) : List Action :=
  [.addWorker engineUrl (some ⟨5557, dpSize⟩), .markLive engineUrl, .register engineUrl,
    .subscribe engineUrl]

/-- `remove_worker`, with the subscriber tasks of `dpSize` ranks and an entry of `known` ranks. -/
def removes (dpSize known : Nat) : List Action :=
  [.removeWorker engineUrl, .markDead engineUrl, .drainHandles engineUrl] ++
    (List.range dpSize).map (fun rank => .exit ⟨engineUrl, rank⟩) ++
    [.joinTasks engineUrl, .lockCursors engineUrl] ++
    List.replicate known (.clear engineUrl .ascending) ++ [.unlock engineUrl]

def firstBatch (rank : Nat) : WorkerEvent :=
  .batch ⟨engineUrl, rank⟩ 1 [.blockStored none [7] (some "GPU")]

/-- The pump is past the live check when the worker is removed. -/
def lateApply : List Action :=
  adds 1 ++ [.send (firstBatch 0), .receive, .checkLive, .checkCursor] ++ removes 1 1 ++
    [.applyEvent .ascending, .commitCursor]

/-- The worker is added again and publishes. -/
def firstBatchAgain : List Action :=
  adds 1 ++ [.send (firstBatch 0), .receive, .checkLive, .checkCursor]

/-- A batch waits in the channel while the worker is removed and added again. -/
def lateReceive : List Action :=
  adds 1 ++ [.send (firstBatch 0)] ++ removes 1 1 ++ adds 1 ++ [.receive, .checkLive, .checkCursor]

/-- The worker is added with two ranks, then with one, and removed. -/
def fewerRanks : List Action :=
  adds 2 ++ [.send (firstBatch 1), .receive, .checkLive, .checkCursor, .applyEvent .ascending,
    .commitCursor] ++ adds 1 ++ removes 2 1

/-- The rank is listed at the first node that was created, that of the block 7. -/
def ListedFirst (s : KvEventIndex) (rank : Nat) : Prop :=
  s.tree.nodes.keyOf 1 = some [7] ∧ (⟨engineUrl, rank⟩ : KvWorkerId) ∈ s.tree.workersOf 1

instance (s : KvEventIndex) (rank : Nat) : Decidable (s.ListedFirst rank) :=
  inferInstanceAs (Decidable (_ ∧ _))

theorem ListedFirst.lists (h : s.ListedFirst rank) : s.tree.Lists ⟨engineUrl, rank⟩ 7 :=
  ⟨1, Nat.one_ne_zero, h.1, h.2⟩

/-- A final state with a decidable property. -/
theorem run_of_decide (as : List Action) (P : KvEventIndex → Prop) [DecidablePred P]
    (h : (new.run as).any (fun s => decide (P s))) : ∃ s, new.run as = some s ∧ P s := by
  cases hrun : new.run as with
  | none => simp [hrun] at h
  | some s => exact ⟨s, rfl, by simpa [hrun] using h⟩

theorem removed_worker_comes_back : (∃ s, new.run lateApply = some s ∧ s.added engineUrl = false ∧
      s.tree.Lists ⟨engineUrl, 0⟩ 7 ∧ s.cursors ⟨engineUrl, 0⟩ = some (1, 0)) ∧
    (∃ s, new.run (lateApply ++ firstBatchAgain) = some s ∧ s.removals engineUrl = 1 ∧
      s.cursors ⟨engineUrl, 0⟩ = some (1, 0) ∧ s.pump = .idle) ∧
    (∃ s, new.run lateReceive = some s ∧ s.removals engineUrl = 1 ∧
      ∃ events, s.pump = .applying ⟨engineUrl, 0⟩ 1 events 0) ∧
    ∃ s, new.run fewerRanks = some s ∧ s.added engineUrl = false ∧
      s.tree.Lists ⟨engineUrl, 1⟩ 7 ∧ s.cursors ⟨engineUrl, 1⟩ = some (1, 0) := by
  refine ⟨?_, ?_, ?_, ?_⟩
  · obtain ⟨s, hrun, ha, hl, hc⟩ := run_of_decide lateApply (fun s =>
      s.added engineUrl = false ∧ s.ListedFirst 0 ∧ s.cursors ⟨engineUrl, 0⟩ = some (1, 0))
      (by decide +kernel)
    exact ⟨s, hrun, ha, hl.lists, hc⟩
  · exact run_of_decide _ _ (by decide +kernel)
  · obtain ⟨s, hrun, hr, hp⟩ := run_of_decide lateReceive (fun s =>
      s.removals engineUrl = 1 ∧ s.pump = .applying ⟨engineUrl, 0⟩ 1
        [.blockStored none [7] (some "GPU")] 0) (by decide +kernel)
    exact ⟨s, hrun, hr, _, hp⟩
  · obtain ⟨s, hrun, ha, hl, hc⟩ := run_of_decide fewerRanks (fun s =>
      s.added engineUrl = false ∧ s.ListedFirst 1 ∧ s.cursors ⟨engineUrl, 1⟩ = some (1, 0))
      (by decide +kernel)
    exact ⟨s, hrun, ha, hl.lists, hc⟩

/-- A batch is applied before the worker is removed. -/
def appliedThenRemoved : List Action :=
  adds 1 ++ [.send (firstBatch 0), .receive, .checkLive, .checkCursor, .applyEvent .ascending,
    .commitCursor] ++ removes 1 1

theorem forgets_removed_worker_idle_pump : ∃ s, new.run appliedThenRemoved = some s ∧
    s.added engineUrl = false ∧ s.removals engineUrl = 1 ∧
      ∀ rank, (∀ h, ¬ s.tree.Lists ⟨engineUrl, rank⟩ h) ∧ s.cursors ⟨engineUrl, rank⟩ = none := by
  obtain ⟨s, hrun, ha, hr, hcalm⟩ := run_of_decide appliedThenRemoved (fun s =>
    s.added engineUrl = false ∧ s.removals engineUrl = 1 ∧ new.CalmAlong appliedThenRemoved)
    (by decide +kernel)
  exact ⟨s, hrun, ha, hr, (forgets_removed_worker (Reach.run .start hcalm hrun)).1 engineUrl ha⟩

end KvEventIndex

end SglangRuntime.KvEvents
