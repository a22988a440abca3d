import EffectMq.MemoryJobStore.Reports

/-! # Fail-fast

A batch of child reports writes into the ledger of a parent only when it settles the parent in
fail-fast, and which batches do that can be read off the store before it
(`recordChildResults_attempts`). Retention may delete the parent at once.
-/

namespace EffectMq.Memory
set_option autoImplicit false
set_option maxHeartbeats 250000

variable {V : Type}

/-- The batch settles the flow in fail-fast: its parent waits, and a failed report is the first one of
the batch for its row, which is pending. -/
def Store.FailsFast (s : Store V) (reports : List (FlowChildReport V)) (id : JobId) : Prop :=
  (∃ job flow, s.jobs.get? id = some job ∧ job.state = .waitingChildren ∧ job.flow = some flow ∧
    flow.failFast = true) ∧
  ∃ before report after row, reports = before ++ report :: after ∧ report.flowId = id ∧
    report.outcome = .failed ∧ s.row? id report.childKey = some row ∧ row.status = .pending ∧
    ∀ earlier ∈ before, earlier.target ≠ report.target

theorem failsFast_book {s : Store V} {reports : List (FlowChildReport V)} {id : JobId} :
    Books.FailsFast s.toCore.book reports id ↔ s.FailsFast reports id := by
  have hpends : ∀ childKey, (s.toCore.book id).pends childKey = true ↔
      ∃ row, s.row? id childKey = some row ∧ row.status = .pending := by
    intro childKey
    rw [Core.pends_book, Option.any_eq_true]
    simp only [decide_eq_true_eq]
  refine and_congr ?_ ?_
  · constructor
    · rintro ⟨p, hp, hstate, flow, hflow, hfast⟩
      obtain ⟨job, hjob, rfl⟩ := Option.map_eq_some_iff.mp hp
      exact ⟨job, flow, hjob, hstate, hflow, hfast⟩
    · rintro ⟨job, flow, hjob, hstate, hflow, hfast⟩
      exact ⟨parentBook job, congrArg (Option.map parentBook) hjob, hstate, flow, hflow, hfast⟩
  · simp only [hpends]
    constructor
    · rintro ⟨before, report, after, heq, hflow, hfailed, ⟨row, hrow, hpending⟩, hnew⟩
      exact ⟨before, report, after, row, heq, hflow, hfailed, hrow, hpending, hnew⟩
    · rintro ⟨before, report, after, row, heq, hflow, hfailed, hrow, hpending, hnew⟩
      exact ⟨before, report, after, heq, hflow, hfailed, ⟨row, hrow, hpending⟩, hnew⟩

/-! ## The second phase -/

/-- The decision on another flow leaves this record or deletes it. -/
theorem settleTouched_apart (now : Millis) {reports : List (FlowChildReport V)}
    {acc : List ReportResult × Store V} (hk : acc.2.toCore.Keyed) {flowId id : JobId}
    (hne : id ≠ flowId) {accepted : List (Placed V)}
    (hplaced : ∀ e ∈ accepted, reports[e.2]? = some e.1) {touch : Touch}
    (htouch : noted Prod.snd accepted = some touch.pair) {job : MemJob V}
    (hjob : (settleTouched now reports acc (flowId, touch)).2.jobs.get? id = some job) :
    acc.2.jobs.get? id = some job := by
  rw [settleTouched_eq now acc flowId hplaced htouch] at hjob
  cases hparent : acc.2.jobs.get? flowId with
  | none =>
    rw [hparent] at hjob
    exact hjob
  | some parent =>
    obtain rfl : parent.id = flowId := hk _ _ hparent
    rw [hparent] at hjob
    dsimp only at hjob
    cases hverdict : (parentBook parent).verdict accepted with
    | stays =>
      rw [hverdict] at hjob
      exact hjob
    | resumes index =>
      rw [hverdict] at hjob
      dsimp only at hjob
      rw [show (makeRunnable acc.2 parent now).jobs = _ from
        congrArg Core.jobs (makeRunnable_toCore ..), putJob_get?, if_neg hne] at hjob
      exact hjob
    | fails index childKey =>
      rw [hverdict] at hjob
      have hwaiting := (ParentBook.verdict_fails hverdict).1
      have hdoes : Does (fun l => l.IsPrune ∨ l = .finish parent.id (.failFast childKey) now)
          acc.2.toCore (settleFailFast acc.2 now parent childKey).toCore :=
        (settleFailFast_finishes hk now childKey hparent hwaiting).does (.inr rfl)
          fun _ => .inl trivial
      refine hdoes.view hk id (I := fun v => ∀ j, v.job = some j → acc.2.jobs.get? id = some j)
        (fun l v v' hl hstep _ hv j hj => ?_) (fun _ hj => hj) job hjob
      rcases hl with hl | rfl
      · cases l <;> try exact hl.elim
        cases hstep with
        | same => exact hv j hj
        | prune => cases hj
      · cases hstep with
        | same => exact hv j hj
        | finish | settle => exact absurd rfl hne

/-- The decision on this flow writes into the ledger of its parent when it fails. -/
theorem settleTouched_attempts (now : Millis) {reports : List (FlowChildReport V)}
    {acc : List ReportResult × Store V} (hk : acc.2.toCore.Keyed) {flowId : JobId}
    {accepted : List (Placed V)} (hplaced : ∀ e ∈ accepted, reports[e.2]? = some e.1)
    {touch : Touch} (htouch : noted Prod.snd accepted = some touch.pair) {parent job : MemJob V}
    (hparent : acc.2.jobs.get? flowId = some parent)
    (hjob : (settleTouched now reports acc (flowId, touch)).2.jobs.get? flowId = some job) :
    job.attempts ≠ parent.attempts ↔
      ∃ index childKey, (parentBook parent).verdict accepted = .fails index childKey := by
  obtain rfl : parent.id = flowId := hk _ _ hparent
  rw [settleTouched_eq now acc _ hplaced htouch, hparent] at hjob
  dsimp only at hjob
  cases hverdict : (parentBook parent).verdict accepted with
  | stays =>
    rw [hverdict] at hjob
    cases hparent.symm.trans hjob
    simp
  | resumes index =>
    rw [hverdict] at hjob
    dsimp only at hjob
    rw [show (makeRunnable acc.2 parent now).jobs = _ from
      congrArg Core.jobs (makeRunnable_toCore ..), putJob_get?, if_pos rfl] at hjob
    obtain rfl := Option.some.inj hjob
    simp
  | fails index childKey =>
    rw [hverdict] at hjob
    refine iff_of_true ?_ ⟨index, childKey, rfl⟩
    refine (settleFailFast_finishes hk now childKey hparent
      (ParentBook.verdict_fails hverdict).1).view hk
      (I := fun v => ∀ j, v.job = some j → j.attempts ≠ parent.attempts) (fun _ hj => by cases hj)
      ?_ job hjob
    intro mid flow rows? hmid _ j hj
    cases hparent.symm.trans hmid
    cases hj
    exact fun heq => List.cons_ne_nil _ _ (List.append_right_eq_self.mp heq)

/-! ## A whole batch -/

/-- The second phase after some of the flows, for the parent `id` with this record before it. -/
structure Attends (reports : List (FlowChildReport V)) (r : Recording V) (id : JobId)
    (job : MemJob V) (done : List JobId) (acc : List ReportResult × Store V) : Prop where
  keyed : acc.2.toCore.Keyed
  undecided : id ∉ done → ∀ j, acc.2.jobs.get? id = some j → j = job
  decided : id ∈ done → ∀ j, acc.2.jobs.get? id = some j →
    (j.attempts ≠ job.attempts ↔ ∃ index childKey, Books.verdict r id = .fails index childKey)

theorem Attends.step {reports : List (FlowChildReport V)} {r : Recording V} {id : JobId}
    {job : MemJob V} {done : List JobId} {acc : List ReportResult × Store V}
    (h : Attends reports r id job done acc) (now : Millis) (hsub : r.2.Sublist reports.zipIdx)
    (hbook : (r.1 id).parent = some (parentBook job)) {flowId : JobId} (hnew : flowId ∉ done)
    {touch : Touch} (htouch : noted Prod.snd (ofFlow r.2 flowId) = some touch.pair) :
    Attends reports r id job (done ++ [flowId]) (settleTouched now reports acc (flowId, touch)) := by
  have hplaced : ∀ e ∈ ofFlow r.2 flowId, reports[e.2]? = some e.1 := fun e he =>
    List.mem_zipIdx_iff_getElem?.mp (hsub.subset (mem_ofFlow.mp he).1)
  have hdoes := settleTouched_does now reports acc (flowId, touch) h.keyed
  refine ⟨hdoes.keyed h.keyed, fun hid j hj => ?_, fun hid j hj => ?_⟩
  · rw [List.mem_append, List.mem_singleton, not_or] at hid
    exact h.undecided hid.1 j (settleTouched_apart now h.keyed hid.2 hplaced htouch hj)
  · by_cases hflow : id = flowId
    · subst hflow
      cases hparent : acc.2.jobs.get? id with
      | none =>
        rw [settleTouched_eq now acc _ hplaced htouch, hparent] at hj
        cases hparent.symm.trans hj
      | some parent =>
        obtain rfl := h.undecided hnew parent hparent
        rw [settleTouched_attempts now h.keyed hplaced htouch hparent hj, Books.verdict,
          FlowBook.verdict, hbook]
        rfl
    · rw [List.mem_append, List.mem_singleton, or_iff_left hflow] at hid
      exact h.decided hid j (settleTouched_apart now h.keyed hflow hplaced htouch hj)

/-- A batch writes into the ledger of a job that stays exactly when it settles it in fail-fast. -/
theorem recordChildResults_attempts {s : Store V} (hk : s.toCore.Keyed) (now : Millis)
    (reports : List (FlowChildReport V)) {id : JobId} {job job' : MemJob V}
    (hj : s.jobs.get? id = some job)
    (hj' : (recordChildResults s now reports).2.jobs.get? id = some job') :
    job'.attempts ≠ job.attempts ↔ s.FailsFast reports id := by
  have hfirst := recorded_follows hk reports
  have hsub : (Books.recorded s.toCore.book reports).2.Sublist reports.zipIdx :=
    Books.accepted_sublist _ _
  rw [← failsFast_book, ← Books.verdict_fails_iff]
  generalize Books.recorded s.toCore.book reports = r at hfirst hsub
  have hattempts := hfirst.attempts id
  rw [hj, Option.map_some] at hattempts
  obtain ⟨mid, hmid, hsame⟩ := Option.map_eq_some_iff.mp hattempts
  have hbook : (r.1 id).parent = some (parentBook mid) := by
    rw [← hfirst.book]
    exact congrArg (Option.map parentBook) hmid
  have hstart : Attends reports r id mid []
      ((recorded s reports).results, { s with toCore := (recorded s reports).core }) :=
    ⟨hfirst.keyed, fun _ j hj => Option.some.inj (hj.symm.trans hmid), fun hid => by cases hid⟩
  obtain ⟨acc, hok, hlast⟩ := foldlM_decides (ε := Empty)
    (f := fun acc entry => .ok (settleTouched now reports acc entry))
    Prod.fst (recorded s reports).touched.entries (recorded s reports).touched.nodup
    (fun done acc entry hentry hnew h => by
      have htouch := hfirst.touched entry.1
      rw [JsMap.get?_eq_some.mpr hentry] at htouch
      exact ⟨_, rfl, h.step now hsub hbook hnew htouch.symm⟩) hstart
  obtain rfl : recordChildResults s now reports = acc :=
    Except.ok.inj ((List.foldlM_pure (m := Except Empty)).symm.trans hok)
  rw [← hsame]
  by_cases htouched : id ∈ (recorded s reports).touched.keys
  · exact hlast.decided htouched job' hj'
  · obtain rfl := hlast.undecided htouched job' hj'
    refine iff_of_false (fun hne => hne rfl) ?_
    rw [hfirst.touched_iff] at htouched
    rw [Books.verdict_of_untouched htouched]
    rintro ⟨index, childKey, hfails⟩
    cases hfails

end EffectMq.Memory
