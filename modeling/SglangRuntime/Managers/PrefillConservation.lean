import SglangRuntime.Managers.Scheduler
import Mathlib.Data.List.Perm.Basic
import Mathlib.Tactic.ApplyFun
import Mathlib.Tactic.Tauto

/-!
# Managers — no request is lost by prefill scheduling

The books of a pass are kept on request identities.  A visit moves identities from the running batch
to `preempt_list` and copies at most the visited one to `can_run_list` (`visit_cases`, `Visited`);
an enqueue adds one identity to the waiting queue or answers one with an abort
(`addRequestToQueue_perm`).  Assembled, a pass that returns a batch is a permutation of what went in.

The one exit that breaks the books is the return on an empty `can_run_list` after requests have been
preempted, since only the code below it re-queues `preempt_list` (`Strands`).
-/

namespace SglangRuntime.Scheduling

open List PrefillAdder SchedulerState

variable {c : SchedulerConfig} {o : Outcomes} {q : List Req} {r : Rid} {i : Nat}
  {s : SchedulerState} {req : Req} {p : PrefillPlan} {running : ScheduleBatch}

/-- The identities of a list of requests. -/
abbrev rids (l : List Req) : List Rid := l.map Req.rid

/-! ### Removing requests from a list -/

theorem mem_rids_without {l : List Req} : r ∈ rids (without l q) ↔ r ∈ rids q ∧ r ∉ rids l := by
  simp only [without, rids, mem_map, mem_filter, decide_eq_true_eq]
  constructor
  · rintro ⟨x, ⟨hx, hl⟩, rfl⟩
    exact ⟨⟨x, hx, rfl⟩, by simpa using hl⟩
  · rintro ⟨⟨x, hx, rfl⟩, hl⟩
    exact ⟨x, ⟨hx, by simpa using hl⟩, rfl⟩

theorem nodup_rids_without {l : List Req} (h : (rids q).Nodup) : (rids (without l q)).Nodup :=
  h.sublist (filter_sublist.map _)

/-- Taking distinct members out of a list and putting them back is a permutation. -/
theorem rids_without_append {l : List Req} (hq : (rids q).Nodup) (hl : (rids l).Nodup)
    (hsub : ∀ r ∈ rids l, r ∈ rids q) : (rids (without l q) ++ rids l).Perm (rids q) := by
  have hdis : ∀ r ∈ rids (without l q), r ∉ rids l := fun r hr => (mem_rids_without.mp hr).2
  have hnd : (rids (without l q) ++ rids l).Nodup :=
    nodup_append.mpr ⟨nodup_rids_without hq, hl, fun r hr r' hr' e => hdis r hr (e ▸ hr')⟩
  rw [perm_ext_iff_of_nodup hnd hq]
  intro r
  rw [mem_append, mem_rids_without]
  constructor
  · rintro (⟨h, -⟩ | h)
    · exact h
    · exact hsub r h
  · intro h
    by_cases hr : r ∈ rids l
    · exact .inr hr
    · exact .inl ⟨h, hr⟩

/-! ### The waiting queue -/

/-- The requests the scheduler has in its hands or has answered. -/
def SchedulerState.known (s : SchedulerState) : List Rid :=
  rids s.waitingQueue ++ rids s.aborted ++ rids s.handedOver

theorem leastPreferred_get {r : Req} (h : leastPreferred c q = some (i, r)) : q[i]? = some r := by
  induction q generalizing i r with
  | nil => cases h
  | cons x q ih =>
    simp only [leastPreferred] at h
    rcases hq : leastPreferred c q with - | ⟨j, b⟩
    · rw [hq] at h
      cases h
      rfl
    rw [hq] at h
    simp only at h
    split_ifs at h
    · cases h; rfl
    · cases h
      simpa using ih hq

theorem rids_eraseIdx {r : Req} (h : q[i]? = some r) :
    (r.rid :: rids (q.eraseIdx i)).Perm (rids q) := by
  obtain ⟨hi, rfl⟩ := List.getElem?_eq_some_iff.mp h
  exact (getElem_cons_eraseIdx_perm hi).map Req.rid

/-- What `_abort_on_queued_limit` does with the books: it answers the incoming request, or another
of the queue in its place, or nobody. -/
theorem abortOnQueuedLimit_cases {s' : SchedulerState} {aborted : Bool}
    (hfresh : req.rid ∉ rids s.waitingQueue) (h : abortOnQueuedLimit c s req = some (aborted, s')) :
    s'.chunkedReq = s.chunkedReq ∧ s'.handedOver = s.handedOver ∧
      (aborted = false ∧ (rids s'.waitingQueue ++ rids s'.aborted).Perm
          (rids s.waitingQueue ++ rids s.aborted) ∨
        aborted ∧ s' = { s with aborted := s.aborted ++ [req] }) := by
  simp only [abortOnQueuedLimit] at h
  split_ifs at h with hlimit hprio hnone
  · cases h
    exact ⟨rfl, rfl, .inl ⟨rfl, .refl _⟩⟩
  · rcases hl : leastPreferred c s.waitingQueue with - | ⟨idx, candidate⟩
    · rw [hl] at h
      cases h
    rw [hl] at h
    simp only at h
    have hget := leastPreferred_get hl
    have hne : (candidate.rid == req.rid) = false := by
      rw [beq_eq_false_iff_ne]
      intro e
      exact hfresh (e ▸ mem_map_of_mem (mem_of_getElem? hget))
    split_ifs at h
    · rw [hne] at h
      cases h
      refine ⟨rfl, rfl, .inl ⟨rfl, ?_⟩⟩
      have hp := (rids_eraseIdx hget).append_right (rids s.aborted)
      refine List.Perm.trans ?_ hp
      simp only [rids, map_append, map_cons, map_nil]
      rw [← append_assoc]
      exact perm_append_singleton _ _
    · cases h
      exact ⟨rfl, rfl, .inr ⟨rfl, rfl⟩⟩
  · cases h
    exact ⟨rfl, rfl, .inr ⟨rfl, rfl⟩⟩

theorem setOrValidatePriority_rid {req' : Req} (h : setOrValidatePriority c req = some req') :
    req'.rid = req.rid := by
  simp only [setOrValidatePriority] at h
  split_ifs at h <;> cases h <;> rfl

/-- The identities `new` have joined the books, and nothing is handed over unless serving is
disaggregated. -/
structure Enqueued (c : SchedulerConfig) (s s' : SchedulerState) (new : List Rid) : Prop where
  perm : s'.known.Perm (new ++ s.known)
  chunkedReq : s'.chunkedReq = s.chunkedReq
  null : c.disaggregationMode = .null → s'.handedOver = s.handedOver
  handed : ∀ r ∈ rids s'.handedOver, r ∈ rids s.handedOver ∨ r ∈ new

/-- **An enqueue** adds one identity to the books. -/
theorem addRequestToQueue_perm {s' : SchedulerState}
    (hfresh : req.rid ∉ rids s.waitingQueue) (h : addRequestToQueue c o s req = some s') :
    Enqueued c s s' [req.rid] := by
  -- the three places where the identity can end up
  have answered (req' : Req) (e : req'.rid = req.rid) :
      ({ s with aborted := s.aborted ++ [req'] } : SchedulerState).known.Perm
        (req.rid :: s.known) := by
    simp only [known, rids, map_append, map_cons, map_nil, e]
    rw [← append_assoc, ← cons_append]
    exact (perm_append_singleton _ _).append_right _
  have handed (req' : Req) (e : req'.rid = req.rid) :
      ({ s with handedOver := s.handedOver ++ [req'] } : SchedulerState).known.Perm
        (req.rid :: s.known) := by
    simp only [known, rids, map_append, map_cons, map_nil, e]
    rw [← append_assoc]
    exact perm_append_singleton _ _
  simp only [addRequestToQueue] at h
  rcases hv : setOrValidatePriority c req with - | req'
  · rw [hv] at h
    cases h
    exact ⟨answered req rfl, rfl, fun _ => rfl, fun r hr => .inl hr⟩
  rw [hv] at h
  have hid := setOrValidatePriority_rid hv
  have handed (e : some { s with handedOver := s.handedOver ++ [req'] } = some s')
      (hm : c.disaggregationMode ≠ .null) : Enqueued c s s' [req.rid] := by
    cases e
    refine ⟨handed req' hid, rfl, fun hm' => absurd hm' hm, fun r hr => ?_⟩
    simpa [rids, hid] using hr
  cases hmode : c.disaggregationMode with
  | null =>
    rw [hmode] at h
    obtain ⟨⟨aborted, s₁⟩, hab, rfl⟩ := Option.map_eq_some_iff.mp h
    obtain ⟨hchunk, hover, ⟨rfl, hp⟩ | ⟨rfl, rfl⟩⟩ :=
      abortOnQueuedLimit_cases (by rwa [hid]) hab
    · refine ⟨?_, hchunk, fun _ => hover, fun r hr => .inl (by rwa [← hover])⟩
      have hp' := (hp.append_right (rids s.handedOver)).cons req.rid
      refine List.Perm.trans ?_ hp'
      simp only [known, rids, Bool.false_eq_true, if_false, map_append,
        map_cons, map_nil, hid, hover]
      exact ((perm_append_singleton _ _).append_right _).append_right _
    · exact ⟨answered req' hid, rfl, fun _ => rfl, fun r hr => .inl hr⟩
  | prefill =>
    rw [hmode] at h
    exact handed h (by rw [hmode]; decide)
  | decode =>
    rw [hmode] at h
    exact handed h (by rw [hmode]; decide)

theorem addRequestsToQueue_perm {reqs : List Req} {s' : SchedulerState}
    (hnd : (rids reqs ++ s.known).Nodup) (h : addRequestsToQueue c o reqs s = some s') :
    Enqueued c s s' (rids reqs) := by
  induction reqs generalizing s with
  | nil =>
    cases h
    exact ⟨.refl _, rfl, fun _ => rfl, fun r hr => .inl hr⟩
  | cons req reqs ih =>
    obtain ⟨s₁, h₁, h⟩ := Option.bind_eq_some_iff.mp h
    simp only [rids, map_cons, cons_append, nodup_cons] at hnd
    obtain ⟨hnot, hnd⟩ := hnd
    have hfresh : req.rid ∉ rids s.waitingQueue := fun hm =>
      hnot (mem_append_right _
        (mem_append_left _ (mem_append_left _ hm)))
    obtain ⟨hp, hchunk, hnull, hover⟩ := addRequestToQueue_perm hfresh h₁
    have hmid : (rids reqs ++ s₁.known).Perm (req.rid :: (rids reqs ++ s.known)) :=
      (hp.append_left _).trans perm_middle
    have hnd₁ : (rids reqs ++ s₁.known).Nodup :=
      hmid.nodup_iff.mpr (nodup_cons.mpr ⟨hnot, hnd⟩)
    obtain ⟨hp', hchunk', hnull', hover'⟩ := ih hnd₁ h
    refine ⟨hp'.trans hmid, hchunk'.trans hchunk, fun hm => (hnull' hm).trans (hnull hm), ?_⟩
    intro r hr
    rcases hover' r hr with hr | hr
    · exact (hover r hr).imp_right fun hr => mem_cons.mpr (.inl (mem_singleton.mp hr))
    · exact .inr (mem_cons_of_mem _ hr)

/-! ### One visit -/

namespace PrefillAdder

variable {a a' a₁ : PrefillAdder} {req : Req} {goOn : Bool} {l queue : List Req} {rem : ℚ}

variable (full : Bool)

@[simp] theorem reqs_setFull :
    (a.setFull full).runningBatch.reqs = a.runningBatch.reqs := rfl

@[simp] theorem canRunList_setFull : (a.setFull full).canRunList = a.canRunList := rfl

@[simp] theorem preemptList_setFull :
    (a.setFull full).preemptList = a.preemptList := rfl

/-- The two adders hold the same requests in the running batch and in `preempt_list`. -/
def SameHeld (a a' : PrefillAdder) : Prop :=
  a'.runningBatch.reqs = a.runningBatch.reqs ∧ a'.preemptList = a.preemptList

theorem addExtend_cases (a : PrefillAdder) (req : Req) (k : AdmissionChecks) :
    SameHeld a (a.addExtend req k).2 ∧
      ((a.addExtend req k).2.canRunList = a.canRunList ++ [req] ∨
        (a.addExtend req k).1 ≠ .continueAdding ∧ (a.addExtend req k).2 = a) := by
  have ho : AddReqResult.other ≠ .continueAdding := by decide
  unfold addExtend
  by_cases hn : k.extend = .nothing
  · rw [if_pos hn]
    exact ⟨⟨rfl, rfl⟩, .inr ⟨ho, rfl⟩⟩
  rw [if_neg hn]
  by_cases ht : (!a.canRunList.isEmpty && !k.tileBudgetFits)
  · rw [if_pos ht]
    exact ⟨⟨rfl, rfl⟩, .inr ⟨ho, rfl⟩⟩
  · rw [if_neg ht]
    exact ⟨⟨rfl, rfl⟩, .inl rfl⟩

/-- `add_one_req` appends the request, or stops the loop and changes nothing. -/
theorem addOneReq_cases (a : PrefillAdder) (req : Req) (k : AdmissionChecks) :
    SameHeld a (a.addOneReq c req k).2 ∧
      ((a.addOneReq c req k).2.canRunList = a.canRunList ++ [req] ∨
        (a.addOneReq c req k).1 ≠ .continueAdding ∧ (a.addOneReq c req k).2 = a) := by
  have stop (r : AddReqResult) (hr : r ≠ .continueAdding) :
      SameHeld a (r, a).2 ∧ ((r, a).2.canRunList = a.canRunList ++ [req] ∨
        (r, a).1 ≠ .continueAdding ∧ (r, a).2 = a) :=
    ⟨⟨rfl, rfl⟩, .inr ⟨hr, rfl⟩⟩
  have hn : AddReqResult.noToken ≠ .continueAdding := by decide
  have ho : AddReqResult.other ≠ .continueAdding := by decide
  simp only [addOneReq, addOneReqIgnoreEos]
  split_ifs <;>
    first
      | exact addExtend_cases a req k
      | exact stop _ hn
      | exact stop _ ho

/-- A request that is not refused leaves `can_run_list` nonempty. -/
def Refused (c : SchedulerConfig) (a : PrefillAdder) (req : Req) (k : AdmissionChecks) : Prop :=
  (a.addOneReq c req k).2 = a

/-- The end of an iteration: the request is still prefetching, or added, or refused. -/
theorem tryAdd_cases (h : a.tryAdd c o req = (goOn, a')) : SameHeld a a' ∧
      ((c.enableHicacheStorage ∧ (o.trial req.rid).prefetchDone = false ∧ goOn ∧
          a' = a) ∨
        ((c.enableHicacheStorage → (o.trial req.rid).prefetchDone) ∧
          (¬ a.Refused c req (o.trial req.rid).checks ∧ a'.canRunList = a.canRunList ++ [req] ∨
            a.Refused c req (o.trial req.rid).checks ∧ goOn = false ∧
              a'.canRunList = a.canRunList))) := by
  simp only [tryAdd] at h
  by_cases hw : (c.enableHicacheStorage && !(o.trial req.rid).prefetchDone)
  · rw [if_pos hw] at h
    cases h
    rw [Bool.and_eq_true, Bool.not_eq_true'] at hw
    exact ⟨⟨rfl, rfl⟩, .inl ⟨hw.1, hw.2, rfl, rfl⟩⟩
  rw [if_neg hw] at h
  have hdone : c.enableHicacheStorage → (o.trial req.rid).prefetchDone := by
    intro he
    simpa [he] using hw
  obtain ⟨hheld, hadd⟩ := addOneReq_cases (c := c) a req (o.trial req.rid).checks
  rcases hres : a.addOneReq c req (o.trial req.rid).checks with ⟨res, a₂⟩
  rw [hres] at h hheld hadd
  have hadd : (¬ a.Refused c req (o.trial req.rid).checks ∧
        a₂.canRunList = a.canRunList ++ [req]) ∨
      res ≠ .continueAdding ∧ a.Refused c req (o.trial req.rid).checks ∧
        a₂.canRunList = a.canRunList := by
    have hrefused : a.Refused c req (o.trial req.rid).checks ↔ a₂ = a := by rw [Refused, hres]
    rw [hrefused]
    refine hadd.imp (fun hadd => ⟨?_, hadd⟩) fun ⟨hne, e⟩ => ⟨hne, e, congrArg _ e⟩
    rintro rfl
    simp at hadd
  cases res with
  | continueAdding =>
    cases h
    refine ⟨hheld, .inr ⟨hdone, hadd.imp_right ?_⟩⟩
    rintro ⟨hne, -⟩
    exact absurd rfl hne
  | noToken | other =>
    cases h
    refine ⟨hheld, .inr ⟨hdone, hadd.imp_right ?_⟩⟩
    rintro ⟨-, hr, e⟩
    exact ⟨hr, rfl, e⟩

/-- LoRA keeps the request out of this pass. -/
def LoraRefuses (c : SchedulerConfig) (o : Outcomes) (req : Req) : Prop :=
  c.enableLora ∧ (o.trial req.rid).canScheduleLora = false

/-- The adder with the full flag as it stands at the visit of `req`. -/
def seen (c : SchedulerConfig) (o : Outcomes) (a : PrefillAdder) (req : Req) : PrefillAdder :=
  a.setFull (a.isFull c (o.trial req.rid).availableRows)

/-- There is room for `req`, by itself or after a preemption, and then the adder is `a'`. -/
inductive Room (c : SchedulerConfig) (o : Outcomes) (a : PrefillAdder) (req : Req) :
    PrefillAdder → Prop where
  | free (h : a.isFull c (o.trial req.rid).availableRows = false) : Room c o a req (a.seen c o req)
  | preempted {l : List Req} (h : a.isFull c (o.trial req.rid).availableRows)
      (hp : c.enablePriorityPreemption)
      (hl : (a.seen c o req).preemptibleReqs c req (o.trial req.rid).remTotalTokens = some l)
      (hne : l ≠ []) : Room c o a req ((a.seen c o req).preempt o.setOrder l)

/-- The batch is full and nobody can be preempted for `req`. -/
def NoRoom (c : SchedulerConfig) (o : Outcomes) (a : PrefillAdder) (req : Req) : Prop :=
  a.isFull c (o.trial req.rid).availableRows ∧
    (c.enablePriorityPreemption →
      (a.seen c o req).preemptibleReqs c req (o.trial req.rid).remTotalTokens = some [])

/-- Everything one visit can do. -/
theorem visit_cases (h : a.visit c o req = some (goOn, a')) :
    (LoraRefuses c o req ∧ goOn ∧ a' = a) ∨
      (¬ LoraRefuses c o req ∧
        ((NoRoom c o a req ∧ goOn = false ∧ a' = a.seen c o req) ∨
          ∃ a₁, Room c o a req a₁ ∧ a₁.tryAdd c o req = (goOn, a'))) := by
  simp only [visit] at h
  by_cases hl : (c.enableLora && !(o.trial req.rid).canScheduleLora)
  · rw [if_pos hl] at h
    cases h
    rw [Bool.and_eq_true, Bool.not_eq_true'] at hl
    exact .inl ⟨hl, rfl, rfl⟩
  rw [if_neg hl] at h
  have hlora : ¬ LoraRefuses c o req := by
    rintro ⟨h₁, h₂⟩
    exact hl (by rw [h₁, h₂]; rfl)
  refine .inr ⟨hlora, ?_⟩
  change (if a.isFull c (o.trial req.rid).availableRows then _ else _) = _ at h
  by_cases hf : a.isFull c (o.trial req.rid).availableRows
  swap
  · rw [if_neg hf] at h
    exact .inr ⟨_, .free (Bool.eq_false_iff.mpr hf), Option.some.inj h⟩
  rw [if_pos hf] at h
  by_cases hp : c.enablePriorityPreemption
  swap
  · rw [if_neg hp] at h
    cases h
    exact .inl ⟨⟨hf, fun h => absurd h hp⟩, rfl, rfl⟩
  rw [if_pos hp] at h
  obtain ⟨⟨preempted, a₂⟩, h₂, h⟩ := Option.map_eq_some_iff.mp h
  obtain ⟨l, hlist, h₂⟩ := Option.map_eq_some_iff.mp h₂
  by_cases hne : l = []
  · rw [if_pos hne] at h₂
    cases h₂
    cases h
    exact .inl ⟨⟨hf, fun _ => hne ▸ hlist⟩, rfl, rfl⟩
  · rw [if_neg hne] at h₂
    cases h₂
    exact .inr ⟨_, .preempted hf hp hlist hne, h⟩

/-! ### The books of a pass -/

/-- The preemptible requests are distinct unfinished requests of the running batch. -/
theorem preemptibleReqs_subperm (h : a.preemptibleReqs c req rem = some l) :
    ∃ l', l.Perm l' ∧ l'.Sublist (a.runningBatch.reqs.filter fun r => !r.finished) := by
  rcases eq_or_ne l [] with rfl | hne
  · exact ⟨[], .refl _, nil_sublist _⟩
  have hvalid : a.validRunningReqs.Sublist (a.runningBatch.reqs.filter fun r => !r.finished) :=
    filter_sublist.filter _
  obtain ⟨priority, -, hchosen⟩ := preemptibleReqs_chosen h hne
  obtain ⟨l', hp, hs⟩ := hchosen.least.sublist.subperm.trans (perm_insertionSort _ _).subperm
  exact ⟨l', hp.symm, hs.trans hvalid⟩

theorem reqs_filterKeep {b : ScheduleBatch} {keep : List Req} (h : keep.Sublist b.reqs) :
    (b.filterKeep keep).reqs = keep := by
  simp only [ScheduleBatch.filterKeep]
  split_ifs with he hl
  · exact he.symm
  · exact (h.eq_of_length hl).symm
  · rfl

/-- The running batch and `preempt_list` together hold the requests that were running. -/
def held (a : PrefillAdder) : List Rid := rids a.runningBatch.reqs ++ rids a.preemptList

/-- A preemption moves requests that have not finished. -/
theorem preempt_held (hnd : a.held.Nodup)
    (h : a.preemptibleReqs c req rem = some l) (setOrder : Reorder) :
    (a.preempt setOrder l).held.Perm a.held ∧
      ∀ r ∈ rids (a.preempt setOrder l).preemptList, r ∈ rids a.preemptList ∨
        ∃ q ∈ a.runningBatch.reqs, q.finished = false ∧ q.rid = r := by
  obtain ⟨l', hp, hs⟩ := preemptibleReqs_subperm h
  have hsub : l'.Sublist a.runningBatch.reqs := hs.trans filter_sublist
  have hreqs : (rids a.runningBatch.reqs).Nodup := (nodup_append.mp hnd).1
  have hrid : rids ((setOrder.apply l).map releaseReq) = rids (setOrder.apply l) := by
    simp only [rids, map_map]; rfl
  have hperm : (rids (setOrder.apply l)).Perm (rids l) := (setOrder.perm l).map _
  have hl : (rids l).Nodup := (hp.map Req.rid).nodup_iff.mpr (hreqs.sublist (hsub.map _))
  have hmem : ∀ r ∈ rids l, r ∈ rids a.runningBatch.reqs := fun r hr =>
    (hsub.map Req.rid).subset ((hp.map Req.rid).mem_iff.mp hr)
  have hbatch : (a.preempt setOrder l).runningBatch.reqs = without l a.runningBatch.reqs :=
    reqs_filterKeep filter_sublist
  have hlist : rids (a.preempt setOrder l).preemptList =
      rids a.preemptList ++ rids (setOrder.apply l) := by
    rw [← hrid]
    simp only [preempt, rids, map_append]
  constructor
  · rw [held, hbatch, hlist]
    have hback := (rids_without_append hreqs hl hmem).append_right (rids a.preemptList)
    rw [append_assoc] at hback
    exact ((perm_append_comm.trans (hperm.append_right _)).append_left _).trans hback
  · intro r hr
    rw [hlist, mem_append] at hr
    refine hr.imp id fun hr => ?_
    obtain ⟨q, hq, rfl⟩ := mem_map.mp ((hp.map Req.rid).mem_iff.mp (hperm.mem_iff.mp hr))
    have hq' := mem_filter.mp (hs.subset hq)
    exact ⟨q, hq'.1, by simpa using hq'.2, rfl⟩

theorem SameHeld.held (h : SameHeld a a') : a'.held = a.held := by
  simp only [PrefillAdder.held, h.1, h.2]

/-- What one visit leaves of the books: `visited` is the part of the queue it has gone through. -/
structure Visited (a a' : PrefillAdder) (visited : List Req) : Prop where
  held : a'.held.Perm a.held
  unfinished : ∀ r ∈ rids a'.preemptList, r ∈ rids a.preemptList ∨
    ∃ q ∈ a.runningBatch.reqs, q.finished = false ∧ q.rid = r
  running : a'.runningBatch.reqs.Sublist a.runningBatch.reqs
  run : ∃ l, l.Sublist visited ∧ a'.canRunList = a.canRunList ++ l

theorem Visited.refl (a : PrefillAdder) (visited : List Req) : Visited a a visited :=
  ⟨.refl _, fun _ h => .inl h, .refl _, [], nil_sublist _, (append_nil _).symm⟩

theorem Visited.of_sameHeld (h : SameHeld a a') {visited : List Req} (hl : l.Sublist visited)
    (hc : a'.canRunList = a.canRunList ++ l) : Visited a a' visited :=
  ⟨by rw [h.held], fun r hr => .inl (by rwa [← h.2]), by rw [h.1], l, hl, hc⟩

theorem Visited.trans {v v' : List Req} (h : Visited a a₁ v) (h' : Visited a₁ a' v') :
    Visited a a' (v ++ v') := by
  obtain ⟨l, hl, e⟩ := h.run
  obtain ⟨l', hl', e'⟩ := h'.run
  refine ⟨h'.held.trans h.held, fun r hr => ?_, h'.running.trans h.running, l ++ l',
    hl.append hl', by rw [e', e, append_assoc]⟩
  rcases h'.unfinished r hr with hr | ⟨q, hq, hf, rfl⟩
  · exact h.unfinished r hr
  · exact .inr ⟨q, h.running.subset hq, hf, rfl⟩

theorem visited_seen (a : PrefillAdder) (req : Req) (visited : List Req) :
    Visited a (a.seen c o req) visited :=
  ⟨.refl _, fun _ h => .inl h, .refl _, [], nil_sublist _, (append_nil _).symm⟩

theorem Room.visited (h : Room c o a req a₁) (hnd : a.held.Nodup) : Visited a a₁ [] := by
  cases h with
  | free => exact visited_seen a req []
  | preempted _ _ hl _ =>
    obtain ⟨hp, hu⟩ := preempt_held (a := a.seen c o req) hnd hl o.setOrder
    refine ⟨hp, hu, ?_, [], .refl _, (append_nil _).symm⟩
    exact (reqs_filterKeep filter_sublist).symm ▸ filter_sublist

theorem tryAdd_visited (h : a.tryAdd c o req = (goOn, a')) : Visited a a' [req] := by
  obtain ⟨hheld, ⟨-, -, -, rfl⟩ | ⟨-, ⟨-, hc⟩ | ⟨-, -, hc⟩⟩⟩ := tryAdd_cases h
  · exact .refl _ _
  · exact .of_sameHeld hheld (.refl _) hc
  · exact .of_sameHeld hheld (nil_sublist _) (by rw [hc, append_nil])

theorem visit_visited (hnd : a.held.Nodup) (h : a.visit c o req = some (goOn, a')) :
    Visited a a' [req] := by
  obtain ⟨-, -, rfl⟩ | ⟨-, ⟨-, -, rfl⟩ | ⟨a₁, hroom, htry⟩⟩ := visit_cases h
  · exact .refl _ _
  · exact visited_seen a req [req]
  · exact (hroom.visited hnd).trans (tryAdd_visited htry)

/-- **A pass over the queue** keeps the books. -/
theorem visitAll_visited (hnd : a.held.Nodup)
    (h : a.visitAll c o queue = some a') : Visited a a' queue := by
  induction queue generalizing a with
  | nil =>
    cases h
    exact .refl _ _
  | cons req queue ih =>
    obtain ⟨⟨goOn, a₁⟩, h₁, h⟩ := Option.bind_eq_some_iff.mp h
    have hv := visit_visited hnd h₁
    cases goOn with
    | true => exact hv.trans (ih (hv.held.nodup_iff.mpr hnd) h)
    | false =>
      cases h
      exact hv.trans (.refl _ queue)

/-! ### When preempted requests are stranded -/

/-- With nothing admitted so far, the pass over the queue ends with nothing admitted and with
requests preempted.  Each waiting request is passed over, or waits for its prefetch, or ends the
pass: no room can be made for it, or `add_one_req` refuses it. -/
inductive Strands (c : SchedulerConfig) (o : Outcomes) : PrefillAdder → List Req → Prop where
  | exhausted {a : PrefillAdder} (hp : a.preemptList ≠ []) : Strands c o a []
  | lora {a : PrefillAdder} {req : Req} {queue : List Req} (hl : LoraRefuses c o req)
      (t : Strands c o a queue) : Strands c o a (req :: queue)
  | noRoom {a : PrefillAdder} {req : Req} {queue : List Req} (hl : ¬ LoraRefuses c o req)
      (hn : NoRoom c o a req) (hp : a.preemptList ≠ []) : Strands c o a (req :: queue)
  | prefetching {a a₁ : PrefillAdder} {req : Req} {queue : List Req} (hl : ¬ LoraRefuses c o req)
      (hr : Room c o a req a₁) (hs : c.enableHicacheStorage)
      (hw : (o.trial req.rid).prefetchDone = false) (t : Strands c o a₁ queue) :
      Strands c o a (req :: queue)
  | refused {a a₁ : PrefillAdder} {req : Req} {queue : List Req} (hl : ¬ LoraRefuses c o req)
      (hr : Room c o a req a₁)
      (hd : c.enableHicacheStorage → (o.trial req.rid).prefetchDone)
      (hf : a₁.Refused c req (o.trial req.rid).checks) (hp : a₁.preemptList ≠ []) :
      Strands c o a (req :: queue)

section

variable (h : Room c o a req a₁)
include h

theorem Room.not_noRoom : ¬ NoRoom c o a req := by
  rintro ⟨hf, hn⟩
  cases h with
  | free h => exact absurd hf (by rw [h]; decide)
  | preempted _ hp hl hne => exact hne (Option.some.inj (hl.symm.trans (hn hp)))

theorem Room.unique {a₂ : PrefillAdder} (h' : Room c o a req a₂) :
    a₁ = a₂ := by
  cases h with
  | free h =>
    cases h' with
    | free => rfl
    | preempted h' => exact absurd h' (by rw [h]; decide)
  | preempted h hp hl hne =>
    cases h' with
    | free h' => exact absurd h (by rw [h']; decide)
    | preempted _ _ hl' => rw [Option.some.inj (hl.symm.trans hl')]

theorem Room.canRunList : a₁.canRunList = a.canRunList := by
  cases h <;> rfl

end

/-- The pass ends with nothing admitted and requests preempted exactly when it strands them. -/
theorem strands_iff (hnd : a.held.Nodup) (hnil : a.canRunList = [])
    (h : a.visitAll c o queue = some a') :
    Strands c o a queue ↔ a'.canRunList = [] ∧ a'.preemptList ≠ [] := by
  induction queue generalizing a with
  | nil =>
    cases h
    refine ⟨fun hs => ?_, fun hs => .exhausted hs.2⟩
    cases hs with | exhausted hp => exact ⟨hnil, hp⟩
  | cons req queue ih =>
    obtain ⟨⟨goOn, a₂⟩, h₁, hrest⟩ := Option.bind_eq_some_iff.mp h
    have hnd₂ := (visit_visited hnd h₁).held.nodup_iff.mpr hnd
    obtain ⟨hl, rfl, rfl⟩ | ⟨hl, ⟨hn, rfl, rfl⟩ | ⟨a₁, hroom, htry⟩⟩ := visit_cases h₁
    · rw [← ih hnd hnil hrest]
      refine ⟨fun hs => ?_, .lora hl⟩
      cases hs with
      | lora _ t => exact t
      | noRoom hl' | prefetching hl' | refused hl' => exact absurd hl hl'
    · cases hrest
      refine ⟨fun hs => ⟨hnil, ?_⟩, fun hs => .noRoom hl hn hs.2⟩
      cases hs with
      | lora hl' => exact absurd hl' hl
      | noRoom _ _ hp => exact hp
      | prefetching _ hr => exact absurd hn hr.not_noRoom
      | refused _ hr => exact absurd hn hr.not_noRoom
    have hnil₁ : a₁.canRunList = [] := hroom.canRunList.trans hnil
    obtain ⟨hheld, ⟨hs, hw, rfl, rfl⟩ | ⟨hd, ⟨hf, hc⟩ | ⟨hf, rfl, hc⟩⟩⟩ := tryAdd_cases htry
    · rw [← ih hnd₂ hnil₁ hrest]
      refine ⟨fun hs => ?_, .prefetching hl hroom hs hw⟩
      cases hs with
      | lora hl' => exact absurd hl' hl
      | noRoom _ hn => exact absurd hn hroom.not_noRoom
      | prefetching _ hr _ _ t => exact hroom.unique hr ▸ t
      | refused _ _ hd => exact absurd (hd hs) (by rw [hw]; decide)
    · -- something has been admitted, and stays so
      have hsome : a'.canRunList ≠ [] := by
        have hgrown : ∃ l, a'.canRunList = a₂.canRunList ++ l := by
          cases goOn with
          | true => exact (visitAll_visited hnd₂ hrest).run.imp fun _ h => h.2
          | false => cases hrest; exact ⟨[], (append_nil _).symm⟩
        obtain ⟨l, e⟩ := hgrown
        rw [e, hc]
        simp
      refine ⟨fun hs => ?_, fun hs => absurd hs.1 hsome⟩
      cases hs with
      | lora hl' => exact absurd hl' hl
      | noRoom _ hn => exact absurd hn hroom.not_noRoom
      | prefetching _ _ hs hw => exact absurd (hd hs) (by rw [hw]; decide)
      | refused _ hr _ hf' => exact absurd (hroom.unique hr ▸ hf') hf
    · cases hrest
      rw [hc, hheld.2]
      refine ⟨fun hs => ⟨hnil₁, ?_⟩, fun hs => .refused hl hroom hd hf hs.2⟩
      cases hs with
      | lora hl' => exact absurd hl' hl
      | noRoom _ hn => exact absurd hn hroom.not_noRoom
      | prefetching _ _ hs hw => exact absurd (hd hs) (by rw [hw]; decide)
      | refused _ hr _ _ hp => exact hroom.unique hr ▸ hp

end PrefillAdder

/-! ### Where a request is after a pass -/

inductive Place where
  | waitingQueue | runningBatch | batchToRun
  /-- answered with an abort -/
  | aborted
deriving DecidableEq, Repr

def PrefillPlan.members (p : PrefillPlan) : Place → List Rid
  | .waitingQueue => rids p.scheduler.waitingQueue
  | .runningBatch => rids p.runningBatch.reqs
  | .batchToRun => rids (p.batchToRun.getD [])
  | .aborted => rids p.scheduler.aborted

/-- The members of all places. -/
def PrefillPlan.everywhere (p : PrefillPlan) : List Rid :=
  p.members .waitingQueue ++ p.members .aborted ++ p.members .runningBatch ++ p.members .batchToRun

/-- Every request of the waiting queue and of the running batch is in exactly one place.  A finished
request that was still in the running batch has been answered, and a mixed batch leaves it out. -/
def Conserves (c : SchedulerConfig) (s : SchedulerState) (running : ScheduleBatch)
    (p : PrefillPlan) : Prop :=
  ∀ q, (q ∈ s.waitingQueue ∨ q ∈ running.reqs ∧ (c.isMixedChunk → q.finished = false)) →
    ∃! place, q.rid ∈ p.members place

theorem PrefillPlan.mem_everywhere : r ∈ p.everywhere ↔ ∃ place, r ∈ p.members place := by
  simp only [everywhere, mem_append]
  constructor
  · rintro (((h | h) | h) | h)
    exacts [⟨_, h⟩, ⟨_, h⟩, ⟨_, h⟩, ⟨_, h⟩]
  · rintro ⟨place, h⟩
    cases place
    exacts [.inl (.inl (.inl h)), .inl (.inr h), .inr h, .inl (.inl (.inr h))]

theorem PrefillPlan.count_members_le {x y : Place} (hxy : x ≠ y) :
    (p.members x).count r + (p.members y).count r ≤ p.everywhere.count r := by
  simp only [everywhere, count_append]
  cases x <;> cases y <;> first | exact absurd rfl hxy | omega

/-- A request that occurs once in all places is in exactly one of them. -/
theorem PrefillPlan.existsUnique_place (hnd : p.everywhere.Nodup)
    (hr : r ∈ p.everywhere) : ∃! place, r ∈ p.members place := by
  obtain ⟨place, h⟩ := mem_everywhere.mp hr
  refine ⟨place, h, fun place' h' => ?_⟩
  by_contra hne
  have hle := p.count_members_le (r := r) (Ne.symm hne)
  have h₁ := count_pos_iff.mpr h
  have h₂ := count_pos_iff.mpr h'
  have h₃ := nodup_iff_count_le_one.mp hnd r
  omega

/-! ### The books of `_get_new_batch_prefill_raw` -/

/-- What is promised of the state in which a pass begins: a request is in one place, `aborted` and
`handedOver` record this pass only, and a server of disaggregated prefill runs no decode. -/
structure Begins (c : SchedulerConfig) (o : Outcomes) (s : SchedulerState)
    (running : ScheduleBatch) : Prop where
  distinct : (rids o.readyGrammarRequests ++ rids s.waitingQueue ++ rids running.reqs ++
    rids s.chunkedReq.toList).Nodup
  aborted : s.aborted = []
  handedOver : s.handedOver = []
  disaggregated : c.disaggregationMode = .null ∨ running.reqs = []

/-- The adder with which the loop begins. -/
abbrev loopAdder (c : SchedulerConfig) (o : Outcomes) (s₁ : SchedulerState)
    (running : ScheduleBatch) : PrefillAdder := (startAdder o s₁ (resetFull c running)).2

/-- The pass reaches its loop and ends it with requests preempted and none admitted.  This looks at
the queue once the ready grammar requests have joined it, in the order of `calc_priority`. -/
def Stranding (c : SchedulerConfig) (o : Outcomes) (s : SchedulerState) (running : ScheduleBatch) :
    Prop :=
  ∃ s₁, addRequestsToQueue c o o.readyGrammarRequests s = some s₁ ∧
    skipPrefill c o s₁ (resetFull c running) = none ∧
    (c.testRetract.any fun bs => decide (bs < running.reqs.length)) = false ∧
    (startAdder o s₁ (resetFull c running)).2.canRunList = [] ∧
    PrefillAdder.Strands c o (startAdder o s₁ (resetFull c running)).2
      (o.calcPriority.apply s₁.waitingQueue)

/-- The books of a pass that went through: all that went in comes out, except for finished requests
that a mixed batch leaves out. -/
structure Books (c : SchedulerConfig) (running : ScheduleBatch) (before : List Rid)
    (p : PrefillPlan) (retired : List Rid) : Prop where
  perm : (p.everywhere ++ rids p.scheduler.handedOver ++ retired).Perm before
  retired : ∀ r ∈ retired, c.isMixedChunk ∧
    ∃ q ∈ running.reqs, q.finished ∧ q.rid = r

@[simp] theorem reqs_resetFull (running : ScheduleBatch) :
    (resetFull c running).reqs = running.reqs := by
  unfold resetFull
  split_ifs <;> rfl

theorem updateChunkedReq_eq {s' : SchedulerState} {r : Option Req}
    (h : updateChunkedReq s r = some s') :
    s'.waitingQueue = s.waitingQueue ∧ s'.aborted = s.aborted ∧ s'.handedOver = s.handedOver := by
  cases r with
  | none =>
    cases h
    exact ⟨rfl, rfl, rfl⟩
  | some r =>
    simp only [updateChunkedReq] at h
    split_ifs at h
    cases h
    exact ⟨rfl, rfl, rfl⟩

/-- The waiting queue after admission, with the admitted requests put back. -/
theorem rids_without_run {ch l W : List Req} (hW : (rids W).Nodup) (hl : l.Sublist W)
    (hch : ∀ r ∈ rids ch, r ∉ rids W) : (rids (without (ch ++ l) W) ++ rids l).Perm (rids W) := by
  have heq : without (ch ++ l) W = without l W := by
    refine filter_congr fun q hq => ?_
    have hq' : q.rid ∉ rids ch := fun h => hch _ h (mem_map_of_mem hq)
    simp only [map_append, mem_append, not_or, hq', not_false_eq_true, true_and]
  rw [heq]
  exact rids_without_append hW (hW.sublist (hl.map _)) fun r hr => (hl.map Req.rid).subset hr

theorem rids_filterBatch (b : ScheduleBatch) :
    (rids b.filterBatch.reqs ++ rids (b.reqs.filter fun r => r.finished)).Perm (rids b.reqs) := by
  have h : b.filterBatch.reqs = b.reqs.filter fun r => !r.finished :=
    reqs_filterKeep filter_sublist
  rw [h, rids, rids, ← map_append]
  have := filter_append_perm (fun r : Req => !r.finished) b.reqs
  simp only [Bool.not_not] at this
  exact this.map _

/-- The end of a pass that admits something. -/
theorem finishPrefill_books {a₀ a : PrefillAdder}
    (hv : a₀.Visited a s.waitingQueue) (hpre : a₀.preemptList = [])
    (hnd : (s.known ++ rids a₀.runningBatch.reqs ++ rids a₀.canRunList).Nodup)
    (hne : a.canRunList ≠ []) (h : finishPrefill c o s a = some p) :
    (∃ retired, Books c a₀.runningBatch
      (s.known ++ rids a₀.runningBatch.reqs ++ rids a₀.canRunList) p retired) ∧
    (c.disaggregationMode = .null → p.scheduler.handedOver = s.handedOver) ∧
    (∀ r ∈ rids p.scheduler.handedOver, r ∈ rids s.handedOver ∨ r ∈ rids a.preemptList) := by
  obtain ⟨l, hl, hrun⟩ := hv.run
  simp only [finishPrefill, List.isEmpty_iff, hne, if_false] at h
  obtain ⟨s₃, hadd, h⟩ := Option.bind_eq_some_iff.mp h
  obtain ⟨s₄, hchunk, h⟩ := Option.bind_eq_some_iff.mp h
  obtain ⟨hw₄, ha₄, ho₄⟩ := updateChunkedReq_eq hchunk
  have hheld : (rids a.runningBatch.reqs ++ rids a.preemptList).Perm
      (rids a₀.runningBatch.reqs) := by
    simpa only [held, hpre, rids, List.map_nil, List.append_nil] using hv.held
  have hknown : (rids s.waitingQueue).Nodup :=
    hnd.sublist (((List.sublist_append_left _ _).trans (List.sublist_append_left _ _)).trans
      ((List.sublist_append_left _ _).trans (List.sublist_append_left _ _)))
  have hch : ∀ r ∈ rids a₀.canRunList, r ∉ rids s.waitingQueue := by
    intro r hr hw
    refine (List.nodup_append.mp hnd).2.2 r ?_ r hr rfl
    exact List.mem_append_left _ (List.mem_append_left _ (List.mem_append_left _ hw))
  have hwait := rids_without_run hknown hl hch
  rw [← hrun] at hwait
  -- from here on the books are sums of counts
  have hone := List.nodup_iff_count_le_one.mp hnd
  have hheldc := fun r => hheld.count_eq r
  have hwaitc := fun r => hwait.count_eq r
  simp only [known, List.count_append] at hone hheldc hwaitc
  have hnd₂ : (rids a.preemptList ++ known
      { s with waitingQueue := without a.canRunList s.waitingQueue }).Nodup := by
    rw [List.nodup_iff_count_le_one]
    intro r
    have h₁ := hone r
    have h₂ := hheldc r
    have h₃ := hwaitc r
    simp only [known, List.count_append]
    omega
  obtain ⟨hperm, -, hnull, hover⟩ := addRequestsToQueue_perm hnd₂ hadd
  have hpermc := fun r => hperm.count_eq r
  simp only [known, List.count_append] at hpermc
  have hrunc (r : Rid) : (rids a.canRunList).count r =
      (rids a₀.canRunList).count r + (rids l).count r := by
    rw [hrun, rids, List.map_append, List.count_append]
  -- a mixed batch takes the running requests along, without those that have finished
  obtain ⟨retired, hsched, hmix, hret⟩ : ∃ retired, p.scheduler = s₄ ∧
      (rids (p.batchToRun.getD []) ++ rids p.runningBatch.reqs ++ retired).Perm
        (rids a.canRunList ++ rids a.runningBatch.reqs) ∧
      ∀ r ∈ retired, c.isMixedChunk ∧ ∃ q ∈ a₀.runningBatch.reqs, q.finished ∧ q.rid = r := by
    split_ifs at h with hm <;> cases h
    · refine ⟨rids (a.runningBatch.reqs.filter fun r => r.finished), rfl, ?_, fun r hr => ?_⟩
      · simp only [Option.getD_some, rids, List.map_append, List.map_nil, List.append_nil,
          List.append_assoc]
        exact (rids_filterBatch a.runningBatch).append_left _
      · obtain ⟨q, hq, rfl⟩ := List.mem_map.mp hr
        obtain ⟨hq, hf⟩ := List.mem_filter.mp hq
        simp only [mixes, Bool.and_eq_true] at hm
        exact ⟨hm.1.1.1, q, hv.running.subset hq, hf, rfl⟩
    · exact ⟨[], rfl, by simp, nofun⟩
  have hmixc := fun r => hmix.count_eq r
  simp only [List.count_append] at hmixc
  refine ⟨⟨retired, List.perm_iff_count.mpr fun r => ?_, hret⟩, fun hn => ?_, ?_⟩
  · have h₁ := hpermc r
    have h₂ := hheldc r
    have h₃ := hwaitc r
    have h₄ := hrunc r
    have h₅ := hmixc r
    simp only [PrefillPlan.everywhere, PrefillPlan.members, known, List.count_append, hsched, hw₄,
      ha₄, ho₄]
    omega
  · rw [hsched, ho₄, hnull hn]
  · rw [hsched, ho₄]
    exact hover

theorem reqs_skipPrefill {running' : ScheduleBatch}
    (h : skipPrefill c o s running = some running') : running'.reqs = running.reqs := by
  simp only [skipPrefill] at h
  split_ifs at h <;> cases h <;> rfl

theorem startAdder_eq (s : SchedulerState) (running : ScheduleBatch) :
    (startAdder o s running).2.runningBatch = running ∧
      (startAdder o s running).2.preemptList = [] ∧
      (startAdder o s running).2.canRunList.Sublist s.chunkedReq.toList := by
  simp only [startAdder]
  cases s.chunkedReq with
  | none => exact ⟨rfl, rfl, .refl _⟩
  | some req => cases o.addChunkedReq <;> exact ⟨rfl, rfl, by simp [addChunkedReq]⟩

/-- The places after a pass whose books balance, for a request that was not handed over. -/
theorem Books.existsUnique {before retired : List Rid} (h : Books c running before p retired) (hnd : before.Nodup) (hr : r ∈ before)
    (hover : r ∉ rids p.scheduler.handedOver) (hret : r ∉ retired) :
    ∃! place, r ∈ p.members place := by
  have hnd' := h.perm.nodup_iff.mpr hnd
  have hmem := h.perm.mem_iff.mpr hr
  rw [mem_append, mem_append] at hmem
  refine p.existsUnique_place (nodup_append.mp (nodup_append.mp hnd').1).1 ?_
  rcases hmem with (hmem | hmem) | hmem
  · exact hmem
  · exact absurd hmem hover
  · exact absurd hmem hret

section Call

variable {s s₁ : SchedulerState} {running : ScheduleBatch} {p : PrefillPlan} {a : PrefillAdder}

/-- The requests at the start of the loop, the ready grammar requests having joined the queue. -/
def gathered (s₁ : SchedulerState) (running : ScheduleBatch) : List Rid :=
  s₁.known ++ rids running.reqs ++ rids s₁.chunkedReq.toList

theorem known_calcPriority (s₁ : SchedulerState) :
    known { s₁ with waitingQueue := o.calcPriority.apply s₁.waitingQueue }
      |>.Perm s₁.known :=
  (((o.calcPriority.perm _).map _).append_right _).append_right _

section

variable (hb : Begins c o s running)
  (hadd : addRequestsToQueue c o o.readyGrammarRequests s = some s₁)
include hb hadd

theorem Begins.gathered :
    (gathered s₁ running).Nodup ∧ s₁.known.Perm (rids o.readyGrammarRequests ++ rids s.waitingQueue) ∧
      (c.disaggregationMode = .null → s₁.handedOver = []) ∧
      ∀ r ∈ rids s₁.handedOver, r ∈ rids o.readyGrammarRequests := by
  have hknown : s.known = rids s.waitingQueue := by
    simp only [known, hb.aborted, hb.handedOver, rids, map_nil, append_nil]
  have hnd : (rids o.readyGrammarRequests ++ s.known).Nodup := by
    rw [hknown]
    exact (nodup_append.mp (nodup_append.mp hb.distinct).1).1
  obtain ⟨hp, hchunk, hnull, hover⟩ := addRequestsToQueue_perm hnd hadd
  rw [hknown] at hp
  refine ⟨?_, hp, fun hn => (hnull hn).trans hb.handedOver, fun r hr => ?_⟩
  · rw [Scheduling.gathered, hchunk]
    exact ((hp.append_right _).append_right _).nodup_iff.mpr hb.distinct
  · rcases hover r hr with hr | hr
    · rw [hb.handedOver] at hr
      cases hr
    · exact hr

/-- Balanced books conserve every request. -/
theorem Books.conserves {before retired : List Rid} (h : Books c running before p retired) (hnd : before.Nodup)
    (hsub : ∀ r ∈ s₁.known ++ rids running.reqs, r ∈ before)
    (hover : ∀ r ∈ rids p.scheduler.handedOver, r ∈ rids o.readyGrammarRequests) :
    Conserves c s running p := by
  obtain ⟨-, hp, -, -⟩ := hb.gathered hadd
  obtain ⟨hd, -, -⟩ := nodup_append.mp hb.distinct
  obtain ⟨hgw, hr, hdis⟩ := nodup_append.mp hd
  obtain ⟨-, -, hdis'⟩ := nodup_append.mp hgw
  intro q hq
  have hq' : q.rid ∈ rids s.waitingQueue ∨ q.rid ∈ rids running.reqs :=
    hq.imp mem_map_of_mem fun hq => mem_map_of_mem hq.1
  refine h.existsUnique hnd (hsub _ ?_) (fun ho => ?_) fun hret => ?_
  · rw [mem_append, hp.mem_iff, mem_append]
    exact hq'.imp_left .inr
  · have hg := hover _ ho
    rcases hq' with hw | hw
    · exact hdis' _ hg _ hw rfl
    · exact hdis _ (mem_append_left _ hg) _ hw rfl
  · obtain ⟨hm, q', hq'', hf, e⟩ := h.retired _ hret
    rcases hq with hw | ⟨hw, hunf⟩
    · exact hdis _ (mem_append_right _ (mem_map_of_mem hw)) _
        (mem_map_of_mem hq'') e.symm
    · rw [inj_on_of_nodup_map hr hq'' hw e] at hf
      exact absurd hf (by rw [hunf hm]; decide)

/-- A pass that returns no batch and has preempted nobody. -/
theorem conserves_of_kept (hknown : p.scheduler.known.Perm s₁.known) (hbatch : p.batchToRun = none)
    (hrun : (rids p.runningBatch.reqs).Perm (rids running.reqs))
    (hover : p.scheduler.handedOver = s₁.handedOver) : Conserves c s running p := by
  obtain ⟨hnd, -, -, hready⟩ := hb.gathered hadd
  have hbooks : Books c running (s₁.known ++ rids running.reqs) p [] := by
    refine ⟨perm_iff_count.mpr fun r => ?_, fun r hr => (not_mem_nil hr).elim⟩
    have h₁ := hknown.count_eq r
    have h₂ := hrun.count_eq r
    simp only [known, count_append] at h₁
    simp only [PrefillPlan.everywhere, PrefillPlan.members, known, hbatch,
      Option.getD_none, map_nil, count_append, count_nil]
    omega
  exact Books.conserves hb hadd hbooks (nodup_append.mp hnd).1 (fun _ h => h)
    (by rw [hover]; exact hready)

variable (hloop : (loopAdder c o s₁ running).visitAll c o
    (o.calcPriority.apply s₁.waitingQueue) = some a)
include hloop

/-- The loop, from the point of view of the books: `a` is the adder it ends with. -/
theorem loop_visited :
    (loopAdder c o s₁ running).held.Nodup ∧
      (loopAdder c o s₁ running).Visited a (o.calcPriority.apply s₁.waitingQueue) ∧
      (rids a.runningBatch.reqs ++ rids a.preemptList).Perm (rids running.reqs) ∧
      ∀ r ∈ rids a.preemptList, ∃ q ∈ running.reqs, q.finished = false ∧ q.rid = r := by
  obtain ⟨hrun, hpre, -⟩ := startAdder_eq (o := o) s₁ (resetFull c running)
  have hheld : (loopAdder c o s₁ running).held = rids running.reqs := by
    simp only [held, hrun, hpre, reqs_resetFull, rids, map_nil, append_nil]
  obtain ⟨hnd, -⟩ := hb.gathered hadd
  have hheldnd : (loopAdder c o s₁ running).held.Nodup := by
    rw [hheld]
    exact (nodup_append.mp (nodup_append.mp hnd).1).2.1
  have hv := visitAll_visited hheldnd hloop
  refine ⟨hheldnd, hv, hheld ▸ hv.held, fun r hr => ?_⟩
  have hu := hv.unfinished r hr
  rw [hpre, hrun, reqs_resetFull] at hu
  exact hu.resolve_left not_mem_nil

/-- A preempted request is nowhere once the pass has returned on an empty `can_run_list`. -/
theorem not_conserves_of_stranded (hpre : a.preemptList ≠ []) (hknown : p.scheduler.known.Perm s₁.known)
    (hbatch : p.batchToRun = none) (hrun : p.runningBatch = a.runningBatch) :
    ¬ Conserves c s running p := by
  obtain ⟨-, -, hheld, hunf⟩ := loop_visited hb hadd hloop
  obtain ⟨hnd, -⟩ := hb.gathered hadd
  obtain ⟨x, hx⟩ := exists_mem_of_ne_nil _ hpre
  obtain ⟨q, hq, hf, hid⟩ := hunf x.rid (mem_map_of_mem hx)
  intro hcons
  obtain ⟨place, hplace, -⟩ := hcons q (.inr ⟨hq, fun _ => hf⟩)
  have hone := nodup_iff_count_le_one.mp (nodup_append.mp hnd).1 q.rid
  have h₁ := hknown.count_eq q.rid
  have h₂ := hheld.count_eq q.rid
  have h₃ : 0 < (rids a.preemptList).count q.rid := by
    rw [hid]; exact count_pos_iff.mpr (mem_map_of_mem hx)
  have h₄ := count_pos_iff.mpr hplace
  simp only [known, count_append] at hone h₁ h₂
  cases place with
  | waitingQueue | aborted =>
    simp only [PrefillPlan.members] at h₄
    omega
  | runningBatch =>
    simp only [PrefillPlan.members, hrun] at h₄
    omega
  | batchToRun =>
    simp only [PrefillPlan.members, hbatch, Option.getD_none, map_nil, count_nil] at h₄
    omega

end

/-- **No request is lost by prefill scheduling**, except in the passes that preempt requests and
then return on an empty `can_run_list`: these, and only these, lose the requests they preempted. -/
theorem getNewBatchPrefillRaw_conserves_iff (hb : Begins c o s running)
    (h : getNewBatchPrefillRaw c o s running = some p) :
    Conserves c s running p ↔ ¬ Stranding c o s running := by
  obtain ⟨s₁, hadd, h⟩ := Option.bind_eq_some_iff.mp h
  have same {s₂ : SchedulerState}
      (h₂ : addRequestsToQueue c o o.readyGrammarRequests s = some s₂) : s₂ = s₁ :=
    Option.some.inj (h₂.symm.trans hadd)
  rcases hskip : skipPrefill c o s₁ (resetFull c running) with - | running'
  swap
  · rw [hskip] at h
    cases h
    refine ⟨fun _ ⟨s₂, h₂, hn, _⟩ => ?_, fun _ => ?_⟩
    · rw [same h₂, hskip] at hn
      cases hn
    · refine conserves_of_kept hb hadd (.refl _) rfl ?_ rfl
      rw [reqs_skipPrefill hskip, reqs_resetFull]
  rw [hskip] at h
  simp only [schedulePrefill, reqs_resetFull] at h
  by_cases htest : (c.testRetract.any fun bs => decide (bs < running.reqs.length)) = true
  · rw [if_pos htest] at h
    cases h
    refine ⟨fun _ ⟨s₂, _, _, hn, _⟩ => absurd htest (by rw [hn]; decide), fun _ => ?_⟩
    exact conserves_of_kept hb hadd (known_calcPriority s₁) rfl (by rw [reqs_resetFull]) rfl
  rw [if_neg htest] at h
  obtain ⟨a, hloop, h⟩ := Option.bind_eq_some_iff.mp h
  obtain ⟨hheldnd, hv, hheld, hunf⟩ := loop_visited hb hadd hloop
  obtain ⟨hrun₀, hpre₀, hchunk₀⟩ := startAdder_eq (o := o) s₁ (resetFull c running)
  have strands (hs : Stranding c o s running) : a.canRunList = [] ∧ a.preemptList ≠ [] := by
    obtain ⟨s₂, h₂, -, -, hnil, hst⟩ := hs
    rw [same h₂] at hnil hst
    exact (strands_iff hheldnd hnil hloop).mp hst
  by_cases hnil : a.canRunList = []
  · simp only [finishPrefill, hnil, isEmpty_nil, if_true] at h
    cases h
    by_cases hpre : a.preemptList = []
    · refine ⟨fun _ hs => (strands hs).2 hpre, fun _ => ?_⟩
      refine conserves_of_kept hb hadd (known_calcPriority s₁) rfl ?_ rfl
      rw [hpre] at hheld
      exact (append_nil (rids a.runningBatch.reqs)) ▸ hheld
    have hnil₀ : (loopAdder c o s₁ running).canRunList = [] := by
      obtain ⟨l, -, e⟩ := hv.run
      rw [hnil] at e
      exact (append_eq_nil_iff.mp e.symm).1
    refine ⟨fun hcons => absurd hcons ?_, fun hns => absurd ?_ hns⟩
    · exact not_conserves_of_stranded hb hadd hloop hpre (known_calcPriority s₁) rfl rfl
    · exact ⟨s₁, hadd, hskip, Bool.eq_false_iff.mpr htest, hnil₀,
        (strands_iff hheldnd hnil₀ hloop).mpr ⟨hnil, hpre⟩⟩
  · refine ⟨fun _ hs => hnil (strands hs).1, fun _ => ?_⟩
    obtain ⟨hnd, -, hnull, hready⟩ := hb.gathered hadd
    have hnd' : (known
        { s₁ with
          waitingQueue := o.calcPriority.apply s₁.waitingQueue
          chunkedReq := (startAdder o s₁ (resetFull c running)).1 } ++
        rids (loopAdder c o s₁ running).runningBatch.reqs ++
        rids (loopAdder c o s₁ running).canRunList).Nodup := by
      rw [hrun₀, reqs_resetFull]
      refine (((known_calcPriority s₁).append_right _).append_right _).nodup_iff.mpr ?_
      exact hnd.sublist ((hchunk₀.map Req.rid).append_left _)
    obtain ⟨⟨retired, hbooks⟩, hnull', hover⟩ := finishPrefill_books hv hpre₀ hnd' hnil h
    have hbooks' : Books c running _ p retired :=
      ⟨hbooks.perm, fun r hr => by
        simpa only [hrun₀, reqs_resetFull] using hbooks.retired r hr⟩
    refine Books.conserves hb hadd hbooks' hnd' (fun r hr => ?_) fun r hr => ?_
    · rw [hrun₀, reqs_resetFull]
      refine mem_append_left _ ?_
      exact (((known_calcPriority s₁).append_right _).mem_iff).mpr hr
    rcases hb.disaggregated with hm | hempty
    · rw [hnull' hm] at hr
      exact hready r hr
    rcases hover r hr with hr | hr
    · exact hready r hr
    · obtain ⟨q, hq, -⟩ := hunf r hr
      rw [hempty] at hq
      cases hq

end Call

/-! ### A preempted request that is lost -/

/-- One row for running requests, priority preemption, storage prefetches. -/
def oneRowConfig : SchedulerConfig where
  enablePriorityScheduling := true
  disablePriorityPreemption := false
  scheduleLowPriorityValuesFirst := false
  abortOnPriorityWhenDisabled := false
  prioritySchedulingPreemptionThreshold := 10
  maxQueuedRequests := none
  ppMaxMicroBatchSize := 1
  prefillMaxRequests := none
  disaggregationMode := .null
  enableLora := false
  enableHierarchicalCache := true
  enableHicacheStorage := true
  isHybridSwa := false
  isMixedChunk := false
  testRetract := none
  dsaPrefillCpInSeqSplit := false
  treeCacheDisabled := false
  chunkedPrefill := true
  newTokenRatio := 1
  clipMaxNewTokens := 4096

/-- A request of 8 tokens that may generate 8 more. -/
def plainReq (rid : Rid) (priority : Int) (waitQueueEntryTime : ℚ) (holdsRow : Bool) : Req where
  rid := rid
  priority := some priority
  waitQueueEntryTime := waitQueueEntryTime
  finished := false
  ignoreEos := false
  maxNewTokens := 8
  outputLen := 0
  fillLen := 8
  prefixLen := 0
  holdsRow := holdsRow
  returnLogprob := false
  hasInputEmbeds := false

variable (prefetchDone : Bool)

/-- Every check passes; the prefetch of the visited request is done or not. -/
def openTrial : Trial where
  canScheduleLora := true
  availableRows := 1
  remTotalTokens := 100
  prefetchDone := prefetchDone
  checks := ⟨true, true, true, true, true, true, true, true, .whole, true, .continueAdding⟩

def openOutcomes : Outcomes where
  readyGrammarRequests := []
  shouldDelay := false
  availableRows := 0
  calcPriority := .id
  setOrder := .id
  addChunkedReq := .parked
  trial _ := openTrial prefetchDone
  now _ := 5

/-- Request 2, of priority 100, waits. -/
def urgentWaiting : SchedulerState := ⟨[plainReq 2 100 1 false], none, [], []⟩

/-- Request 1, of priority 0, runs in the only row. -/
def lowRunning : ScheduleBatch := ⟨[plainReq 1 0 0 true], false, false⟩

theorem begins_urgentWaiting :
    Begins oneRowConfig (openOutcomes prefetchDone) urgentWaiting lowRunning :=
  ⟨by simp only [openOutcomes]; decide, rfl, rfl, .inl rfl⟩

/-- Request 1 is preempted for request 2, whose prefetch is not done: nothing is admitted, the pass
returns, and request 1 is nowhere. -/
theorem preempted_request_lost : Begins oneRowConfig (openOutcomes false) urgentWaiting lowRunning ∧
      getNewBatchPrefillRaw oneRowConfig (openOutcomes false) urgentWaiting lowRunning =
        some ⟨urgentWaiting, none, ⟨[], true, false⟩⟩ ∧
      ¬ Conserves oneRowConfig urgentWaiting lowRunning
        ⟨urgentWaiting, none, ⟨[], true, false⟩⟩ := by
  refine ⟨begins_urgentWaiting false, by decide +kernel, fun h => ?_⟩
  obtain ⟨place, hplace, -⟩ := h (plainReq 1 0 0 true) (.inr ⟨by decide +kernel, fun _ => rfl⟩)
  cases place <;> exact absurd hplace (by decide +kernel)

/-- The same pass with the prefetch done admits request 2 and re-queues request 1. -/
theorem conserves_iff_urgentWaiting :
    getNewBatchPrefillRaw oneRowConfig (openOutcomes true) urgentWaiting lowRunning =
        some ⟨⟨[plainReq 1 0 5 false], none, [], []⟩, some [plainReq 2 100 1 false],
          ⟨[], true, false⟩⟩ ∧
      (Conserves oneRowConfig urgentWaiting lowRunning
          ⟨⟨[plainReq 1 0 5 false], none, [], []⟩, some [plainReq 2 100 1 false],
            ⟨[], true, false⟩⟩ ↔
        ¬ Stranding oneRowConfig (openOutcomes true) urgentWaiting lowRunning) := by
  have h : getNewBatchPrefillRaw oneRowConfig (openOutcomes true) urgentWaiting lowRunning =
      some ⟨⟨[plainReq 1 0 5 false], none, [], []⟩, some [plainReq 2 100 1 false],
        ⟨[], true, false⟩⟩ := by
    decide +kernel
  exact ⟨h, getNewBatchPrefillRaw_conserves_iff (begins_urgentWaiting true) h⟩

end SglangRuntime.Scheduling
