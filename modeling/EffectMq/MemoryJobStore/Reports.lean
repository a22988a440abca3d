import EffectMq.Reports
import EffectMq.MemoryJobStore.Outbox
import EffectMq.MemoryJobStore.Redelivery

/-! # Child reports in the memory driver

`recordChildResults` does to the books of the store what `Books.after` says, and answers accordingly
(`recordChildResults_books`). Retention is the one thing that could reach beyond the reported flows: it
runs only when a parent fails fast, so those parents keep no policy.
-/

namespace EffectMq.Memory
set_option autoImplicit false
set_option maxHeartbeats 250000

open Transition

variable {V : Type}

/-! ## Books -/

def rowBook (row : MemFlowChild V) : RowBook V :=
  ⟨row.status, row.exit, row.failedReason, row.cascaded⟩

def parentBook (job : MemJob V) : ParentBook V :=
  ⟨job.state, job.flow, job.exit, job.failedReason, job.parent, job.attempts.map (·.outcome)⟩

/-- A flow of the store. -/
def Core.book (c : Core V) (flowId : JobId) : FlowBook V where
  rows childKey := (c.row? flowId childKey).map rowBook
  pendingRows := ((c.flowChildren.get? flowId).map fun rows => countStatus rows .pending).getD 0
  parent := (c.jobs.get? flowId).map parentBook

theorem Core.pends_book (c : Core V) (flowId : JobId) (childKey : String) :
    (c.book flowId).pends childKey =
      (c.row? flowId childKey).any fun row => decide (row.status = .pending) := by
  rw [FlowBook.pends, Core.book, Option.any_map]
  rfl

/-! ## One report -/

theorem applyReport_row? (c : Core V) (row : MemFlowChild V) (report : FlowChildReport V)
    {row₀ : MemFlowChild V} (hrow : c.row? report.flowId report.childKey = some row₀)
    (flowId : JobId) (childKey : String) :
    (c.applyReport row report).row? flowId childKey =
      if flowId = report.flowId ∧ childKey = report.childKey then some (reportRow row report)
      else c.row? flowId childKey := by
  rw [Core.row?, applyReport_flowChildren, JsMap.get?_modify]
  by_cases hflow : flowId = report.flowId
  · subst hflow
    obtain ⟨rows, hrows, hget⟩ := Option.bind_eq_some_iff.mp hrow
    rw [if_pos rfl, Core.row?, hrows, Option.map_some, Option.bind_some, Option.bind_some,
      JsMap.get?_modify]
    by_cases hkey : childKey = report.childKey
    · rw [if_pos hkey, if_pos ⟨rfl, hkey⟩, hget, Option.map_some]
    · rw [if_neg hkey, if_neg fun h => hkey h.2]
  · rw [if_neg hflow, if_neg fun h => hflow h.1]
    rfl

theorem book_applyReport {c : Core V} (hk : c.Keyed) {row : MemFlowChild V}
    {report : FlowChildReport V} (hrow : c.row? report.flowId report.childKey = some row)
    (hpending : row.status = .pending) :
    (c.applyReport row report).book =
      Function.update c.book report.flowId ((c.book report.flowId).apply report) := by
  funext flowId
  by_cases hflow : flowId = report.flowId
  · subst hflow
    rw [Function.update_self]
    apply FlowBook.ext
    · funext childKey
      change ((c.applyReport row report).row? report.flowId childKey).map rowBook = _
      rw [applyReport_row? c row report hrow]
      simp only [FlowBook.apply, true_and]
      by_cases hkey : childKey = report.childKey
      · subst hkey
        rw [if_pos rfl, Function.update_self]
        rfl
      · rw [if_neg hkey, Function.update_of_ne hkey]
        rfl
    · obtain ⟨rows, hrows, hget⟩ := Option.bind_eq_some_iff.mp hrow
      have hcount := countStatus_report hget hpending .pending
      rw [if_pos rfl, if_neg (toChildStatus_ne_pending _).symm] at hcount
      simp only [Core.book, FlowBook.apply, applyReport_flowChildren, JsMap.get?_modify, if_true,
        hrows, Option.map_some, Option.getD_some]
      omega
    · simp only [Core.book, FlowBook.apply, applyReport_get? _ _ _ hk, if_true, Option.map_map]
      rfl
  · rw [Function.update_of_ne hflow]
    apply FlowBook.ext
    · funext childKey
      change ((c.applyReport row report).row? flowId childKey).map rowBook = _
      rw [applyReport_row? c row report hrow, if_neg fun h => hflow h.1]
      rfl
    · simp only [Core.book, applyReport_flowChildren, JsMap.get?_modify, if_neg hflow]
    · simp only [Core.book, applyReport_get? _ _ _ hk, if_neg hflow]

/-! ## The first phase -/

def Touch.pair (touch : Touch) : ℕ × Option ℕ := (touch.lastApplied, touch.firstAppliedFailed)

theorem touchReport_get? {touched : JsMap JobId Touch} {accepted : List (Placed V)}
    (h : ∀ flowId, (touched.get? flowId).map Touch.pair = noted Prod.snd (ofFlow accepted flowId))
    (e : Placed V) (flowId : JobId) :
    ((touchReport touched e.1 e.2).get? flowId).map Touch.pair =
      noted Prod.snd (ofFlow (accepted ++ [e]) flowId) := by
  rw [touchReport, JsMap.get?_set, ofFlow_append, ofFlow_singleton]
  by_cases hflow : flowId = e.1.flowId
  · subst hflow
    rw [if_pos rfl, if_pos rfl, noted_snoc, ← h]
    cases touched.get? e.1.flowId with
    | none => by_cases hfailed : e.1.outcome = .failed <;> simp [Touch.pair, hfailed]
    | some touch =>
      cases hfirst : touch.firstAppliedFailed <;>
        by_cases hfailed : e.1.outcome = .failed <;> simp [Touch.pair, hfirst, hfailed]
  · rw [if_neg hflow, if_neg (Ne.symm hflow), List.append_nil, h]

def answerOf (results : List ReportResult) : List (Bool × Bool) :=
  results.map fun r => (r.applied, r.parentSettled)

theorem answerOf_set (results : List ReportResult) (index : ℕ) (r : ReportResult) :
    answerOf (results.set index r) = (answerOf results).set index (r.applied, r.parentSettled) :=
  List.map_set ..

/-- The first phase after some of the reports. -/
structure Follows (s : Store V) (reports : List (FlowChildReport V)) (acc : RecordState V)
    (r : Recording V) : Prop where
  keyed : acc.core.Keyed
  book : acc.core.book = r.1
  touched : ∀ flowId,
    (acc.touched.get? flowId).map Touch.pair = noted Prod.snd (ofFlow r.2 flowId)
  results : answerOf acc.results = Books.flags reports r.2
  outbox : acc.core.outbox = s.outbox
  keep : ∀ flowId, (acc.core.jobs.get? flowId).map (·.keep) = (s.jobs.get? flowId).map (·.keep)
  attempts : ∀ flowId,
    (acc.core.jobs.get? flowId).map (·.attempts) = (s.jobs.get? flowId).map (·.attempts)

theorem Follows.start {s : Store V} (hk : s.toCore.Keyed) (reports : List (FlowChildReport V)) :
    Follows s reports
      { core := s.toCore, results := reports.map fun _ => ⟨false, false⟩, touched := ∅ }
      (s.toCore.book, []) where
  keyed := hk
  book := rfl
  touched _ := rfl
  results := by
    rw [Books.flags_nil, answerOf, List.map_map]
    rfl
  outbox := rfl
  keep _ := rfl
  attempts _ := rfl

theorem Follows.step {s : Store V} {reports : List (FlowChildReport V)} {acc : RecordState V}
    {r : Recording V} (h : Follows s reports acc r) (e : Placed V) :
    Follows s reports (recordReport acc e) (Books.step r e) := by
  have hpends := acc.core.pends_book e.1.flowId e.1.childKey
  rw [h.book] at hpends
  cases hrow : acc.core.row? e.1.flowId e.1.childKey with
  | none =>
    rw [hrow, Option.any_none] at hpends
    rw [Books.step_of_not r e hpends, recordReport, hrow]
    exact h
  | some row =>
    rw [hrow, Option.any_some] at hpends
    by_cases hpending : row.status = .pending
    · rw [Books.step_of_pends r e (by rw [hpends, hpending]; rfl), recordReport]
      simp only [hrow]
      rw [if_neg (not_not_intro hpending)]
      refine
        { keyed := (Step.report e.1 hrow hpending).keyed h.keyed
          book := by rw [book_applyReport h.keyed hrow hpending, h.book]
          touched := touchReport_get? h.touched e
          results := by rw [answerOf_set, h.results, Books.flags_snoc]
          outbox := (applyReport_outbox acc.core row e.1).1.trans h.outbox
          keep := fun flowId => ?_
          attempts := fun flowId => ?_ }
      · rw [← h.keep, applyReport_get? _ _ _ h.keyed]
        split
        · rw [Option.map_map]
          rfl
        · rfl
      · rw [← h.attempts, applyReport_get? _ _ _ h.keyed]
        split
        · rw [Option.map_map]
          rfl
        · rfl
    · rw [Books.step_of_not r e (by rw [hpends, decide_eq_false hpending]), recordReport]
      simp only [hrow]
      rw [if_pos hpending]
      exact h

theorem recorded_follows {s : Store V} (hk : s.toCore.Keyed) (reports : List (FlowChildReport V)) :
    Follows s reports (recorded s reports) (Books.recorded s.toCore.book reports) := by
  have hfold : ∀ (es : List (Placed V)) (acc : RecordState V) (r : Recording V),
      Follows s reports acc r →
      Follows s reports (es.foldl recordReport acc) (es.foldl Books.step r) := by
    intro es
    induction es with
    | nil => exact fun _ _ h => h
    | cons e es ih => exact fun acc r h => ih _ _ (h.step e)
  exact hfold reports.zipIdx _ _ (.start hk reports)

theorem Follows.touched_iff {s : Store V} {reports : List (FlowChildReport V)} {acc : RecordState V}
    {r : Recording V} (h : Follows s reports acc r) (flowId : JobId) :
    flowId ∈ acc.touched.keys ↔ flowId ∈ Books.touched r := by
  rw [JsMap.mem_keys, ← Option.isSome_iff_exists, Books.mem_touched, ne_eq,
    ← noted_eq_none Prod.snd, ← h.touched, ← ne_eq, ← Option.isSome_iff_ne_none,
    Option.isSome_map]

/-! ## The second phase -/

/-- The reports in the outbox, ids apart. -/
def Core.sent (c : Core V) : List (String × String × FlowChildReport V) :=
  c.outbox.map fun entry => (entry.flowName, entry.parentStoreKey, entry.report)

theorem appendOutbox_sent (c : Core V) (job : MemJob V) (outcome : TerminalState) :
    (c.appendOutbox job outcome).sent = c.sent ++
      (job.parent.map fun parent => (parent.flowName, parent.parentStoreKey,
        { flowId := parent.flowId, childKey := parent.childKey, outcome, exit := job.exit,
          failedReason := job.failedReason })).toList := by
  unfold Core.appendOutbox Core.sent
  cases job.parent with
  | none => simp
  | some parent => simp

def resultAt (results : List ReportResult) (v : Verdict) : List ReportResult :=
  match v.index with
  | none => results
  | some index => results.set index ⟨true, true⟩

theorem answerOf_resultAt (results : List ReportResult) (v : Verdict) :
    answerOf (resultAt results v) = Books.answerAt (answerOf results) v := by
  unfold resultAt Books.answerAt
  cases v.index with
  | none => rfl
  | some index => exact answerOf_set ..

/-- One flow of the second phase, by its verdict. -/
theorem settleTouched_eq (now : Millis) {reports : List (FlowChildReport V)}
    (acc : List ReportResult × Store V) (flowId : JobId) {accepted : List (Placed V)}
    (hplaced : ∀ e ∈ accepted, reports[e.2]? = some e.1) {touch : Touch}
    (htouch : noted Prod.snd accepted = some touch.pair) :
    settleTouched now reports acc (flowId, touch) =
      match acc.2.jobs.get? flowId with
      | none => acc
      | some parent =>
        (resultAt acc.1 ((parentBook parent).verdict accepted),
          match (parentBook parent).verdict accepted with
          | .stays => acc.2
          | .resumes _ => makeRunnable acc.2 parent now
          | .fails _ childKey => settleFailFast acc.2 now parent childKey) := by
  obtain ⟨last, hlast, hpair⟩ := Option.map_eq_some_iff.mp htouch
  obtain rfl : touch = ⟨last.2, (firstFailed accepted).map Prod.snd⟩ :=
    congrArg (fun t : ℕ × Option ℕ => (⟨t.1, t.2⟩ : Touch)) hpair.symm
  obtain ⟨results, s⟩ := acc
  unfold settleTouched
  simp only
  cases hparent : s.jobs.get? flowId with
  | none => rfl
  | some parent =>
    simp only
    cases hflow : parent.flow with
    | none => simp [ParentBook.verdict, parentBook, hflow, resultAt, Verdict.index]
    | some flow =>
      simp only
      by_cases hstate : parent.state = .waitingChildren
      · rw [if_neg (not_not_intro hstate)]
        simp only [ParentBook.verdict, parentBook, hflow, hlast, hstate]
        cases hfail : (if flow.failFast then firstFailed accepted else none) with
        | some e =>
          have hfast : flow.failFast = true := by
            by_contra hslow
            rw [if_neg hslow] at hfail
            cases hfail
          rw [if_pos hfast] at hfail
          have hreport := hplaced e (List.mem_of_find?_eq_some hfail)
          simp [hfast, hfail, hreport, resultAt, Verdict.index]
        | none =>
          have hnone : (if flow.failFast then (firstFailed accepted).map Prod.snd else none) = none := by
            cases hfast : flow.failFast <;> simp_all
          simp only [hnone, Option.bind_none]
          by_cases hzero : flow.pending = 0
          · simp [hzero, resultAt, Verdict.index]
          · simp [hzero, resultAt, Verdict.index]
      · simp [ParentBook.verdict, parentBook, hflow, hlast, hstate, resultAt, Verdict.index]

theorem book_pendingRows (c : Core V) (flowId : JobId) :
    (c.book flowId).pendingRows = pendingRows (c.flowChildren.get? flowId) := by
  unfold Core.book pendingRows
  cases c.flowChildren.get? flowId <;> rfl

theorem parentBook_failed (c : Core V) (now : Millis) {parent : MemJob V}
    (hwaiting : parent.state = .waitingChildren) (childKey : String) :
    parentBook (endJob { parent with flow := c.settledFlow? parent } now (.failFast childKey)) =
      (parentBook parent).failed childKey (c.book parent.id).pendingRows := by
  rw [book_pendingRows, Core.settledFlow?, if_pos hwaiting]
  simp only [parentBook, endJob, recordAttempt, ParentBook.failed, List.map_append]
  rfl

section Enact

variable {s : Store V} (hk : s.toCore.Keyed) (now : Millis) {parent : MemJob V}
  (hparent : s.jobs.get? parent.id = some parent)

include hparent

theorem book_parent : (s.toCore.book parent.id).parent = some (parentBook parent) :=
  congrArg (Option.map parentBook) hparent

theorem book_makeRunnable (index : ℕ) :
    (makeRunnable s parent now).toCore.book =
      Function.update s.toCore.book parent.id
        ((s.toCore.book parent.id).enact (.resumes index)) := by
  rw [makeRunnable_toCore]
  funext flowId
  by_cases hflow : flowId = parent.id
  · subst hflow
    rw [Function.update_self]
    apply FlowBook.ext
    · rfl
    · rfl
    · rw [FlowBook.enact, book_parent hparent]
      simp only [Core.book, putJob_get?, if_true]
      rfl
  · rw [Function.update_of_ne hflow]
    apply FlowBook.ext
    · rfl
    · rfl
    · simp only [Core.book, putJob_get?, if_neg hflow]

variable (hwaiting : parent.state = .waitingChildren) (hkeep : parent.keep = none)

omit hparent in
include hwaiting hkeep in
theorem settleFailFast_unpruned (childKey : String) :
    (settleFailFast s now parent childKey).toCore =
      s.toCore.finish parent (.failFast childKey) now := by
  rw [settleFailFast_toCore s now parent childKey hwaiting, Core.applyKeep]
  have hnone : (endJob { parent with flow := s.toCore.settledFlow? parent } now
      (.failFast childKey)).keep = none := hkeep
  rw [hnone]
  rfl

include hwaiting hkeep

theorem book_settleFailFast (index : ℕ) (childKey : String) :
    (settleFailFast s now parent childKey).toCore.book =
      Function.update s.toCore.book parent.id
        ((s.toCore.book parent.id).enact (.fails index childKey)) := by
  rw [settleFailFast_unpruned now hwaiting hkeep]
  funext flowId
  by_cases hflow : flowId = parent.id
  · subst hflow
    rw [Function.update_self]
    apply FlowBook.ext
    · funext key
      change ((Core.row? _ _ _).map rowBook) = ((Core.row? _ _ _).map rowBook).map RowBook.marked
      rw [Core.row?, finish_flowChildren, Core.settledRows, if_pos hwaiting,
        markPendingRowsCancelled_get?, if_pos rfl, Core.row?, Option.map_map, Option.bind_map]
      cases s.flowChildren.get? parent.id with
      | none => rfl
      | some rows =>
        simp only [Option.bind_some, Function.comp_apply, JsMap.get?_mapValues, Option.map_map]
        congr 1
        funext row
        by_cases hpending : row.status = .pending <;>
          simp [markRow, rowBook, RowBook.marked, hpending]
    · simp only [Core.book, finish_flowChildren, Core.settledRows, if_pos hwaiting,
        markPendingRowsCancelled_get?, if_true, FlowBook.enact]
      cases s.flowChildren.get? parent.id with
      | none => rfl
      | some rows => simp [countStatus_markRow]
    · rw [FlowBook.enact, book_parent hparent]
      simp only [Core.book, finish_get?, if_true, Option.map_some]
      rw [parentBook_failed s.toCore now hwaiting childKey]
      rfl
  · rw [Function.update_of_ne hflow]
    apply FlowBook.ext
    · funext key
      change ((Core.row? _ _ _).map rowBook) = ((Core.row? _ _ _).map rowBook)
      rw [Core.row?, finish_flowChildren, Core.settledRows, if_pos hwaiting,
        markPendingRowsCancelled_get?, if_neg hflow]
      rfl
    · simp only [Core.book, finish_flowChildren, Core.settledRows, if_pos hwaiting,
        markPendingRowsCancelled_get?, if_neg hflow]
    · simp only [Core.book, finish_get?, if_neg hflow]

theorem sent_settleFailFast (index : ℕ) (childKey : String) :
    (settleFailFast s now parent childKey).toCore.sent = s.toCore.sent ++
      ((s.toCore.book parent.id).sends (.fails index childKey)).toList := by
  rw [settleFailFast_unpruned now hwaiting hkeep, finish_eq, appendOutbox_sent, FlowBook.sends,
    book_parent hparent, Option.bind_some]
  have hsame : (((s.toCore.settledRows parent).putJob
      (endJob { parent with flow := s.toCore.settledFlow? parent } now (.failFast childKey))).sent) =
      s.toCore.sent := by
    rw [Core.sent, putJob_outbox, (settledRows_outbox s.toCore parent).1]
    rfl
  rw [hsame]
  rfl

end Enact

theorem makeRunnable_keep (s : Store V) (now : Millis) {parent : MemJob V}
    (hparent : s.jobs.get? parent.id = some parent) (flowId : JobId) :
    ((makeRunnable s parent now).jobs.get? flowId).map (·.keep) =
      (s.jobs.get? flowId).map (·.keep) := by
  rw [show (makeRunnable s parent now).jobs = _ from congrArg Core.jobs (makeRunnable_toCore ..),
    putJob_get?]
  split
  · rename_i hflow
    rw [hflow, hparent]
    rfl
  · rfl

theorem settleFailFast_keep (s : Store V) (now : Millis) {parent : MemJob V}
    (hparent : s.jobs.get? parent.id = some parent) (hwaiting : parent.state = .waitingChildren)
    (hkeep : parent.keep = none) (childKey : String) (flowId : JobId) :
    ((settleFailFast s now parent childKey).jobs.get? flowId).map (·.keep) =
      (s.jobs.get? flowId).map (·.keep) := by
  rw [show (settleFailFast s now parent childKey).jobs = _ from
    congrArg Core.jobs (settleFailFast_unpruned now hwaiting hkeep childKey), finish_get?]
  split
  · rename_i hflow
    rw [hflow, hparent]
    rfl
  · rfl

/-- The second phase after some of the flows. -/
structure Decides (s : Store V) (reports : List (FlowChildReport V)) (r : Recording V)
    (done : List JobId) (acc : List ReportResult × Store V) : Prop where
  keyed : acc.2.toCore.Keyed
  decided : Books.Decided r.1 reports r s.toCore.sent done (answerOf acc.1) acc.2.toCore.book
    acc.2.toCore.sent
  keep : ∀ flowId, (acc.2.jobs.get? flowId).map (·.keep) = (s.jobs.get? flowId).map (·.keep)

/-- What one flow of the second phase does, by the verdict on its book. -/
theorem settleTouched_enacts (now : Millis) {reports : List (FlowChildReport V)}
    {acc : List ReportResult × Store V} (hk : acc.2.toCore.Keyed) (flowId : JobId)
    {accepted : List (Placed V)} (hplaced : ∀ e ∈ accepted, reports[e.2]? = some e.1)
    {touch : Touch} (htouch : noted Prod.snd accepted = some touch.pair)
    (hkeep : ∀ parent flow, acc.2.jobs.get? flowId = some parent → parent.flow = some flow →
      flow.failFast = true → parent.keep = none) :
    ∃ s' : Store V,
      settleTouched now reports acc (flowId, touch) =
        (resultAt acc.1 ((acc.2.toCore.book flowId).verdict accepted), s') ∧
      s'.toCore.book = Function.update acc.2.toCore.book flowId
        ((acc.2.toCore.book flowId).enact ((acc.2.toCore.book flowId).verdict accepted)) ∧
      s'.toCore.sent = acc.2.toCore.sent ++
        ((acc.2.toCore.book flowId).sends ((acc.2.toCore.book flowId).verdict accepted)).toList ∧
      ∀ id, (s'.jobs.get? id).map (·.keep) = (acc.2.jobs.get? id).map (·.keep) := by
  rw [settleTouched_eq now acc flowId hplaced htouch, FlowBook.verdict]
  have hsame : ∀ v : Verdict, v = .stays →
      acc.2.toCore.book = Function.update acc.2.toCore.book flowId
        ((acc.2.toCore.book flowId).enact v) ∧
      acc.2.toCore.sent = acc.2.toCore.sent ++ ((acc.2.toCore.book flowId).sends v).toList := by
    rintro v rfl
    exact ⟨(Function.update_eq_self flowId _).symm, (List.append_nil _).symm⟩
  cases hparent : acc.2.jobs.get? flowId with
  | none =>
    have hnone : (acc.2.toCore.book flowId).parent = none := congrArg (Option.map parentBook) hparent
    rw [hnone]
    exact ⟨acc.2, rfl, (hsame _ rfl).1, (hsame _ rfl).2, fun _ => rfl⟩
  | some parent =>
    have hbook : (acc.2.toCore.book flowId).parent = some (parentBook parent) :=
      congrArg (Option.map parentBook) hparent
    obtain rfl : parent.id = flowId := hk _ _ hparent
    rw [hbook, Option.map_some, Option.getD_some]
    dsimp only
    cases hverdict : (parentBook parent).verdict accepted with
    | stays => exact ⟨acc.2, rfl, (hsame _ rfl).1, (hsame _ rfl).2, fun _ => rfl⟩
    | resumes index =>
      refine ⟨_, rfl, book_makeRunnable now hparent index, ?_, makeRunnable_keep acc.2 now hparent⟩
      rw [makeRunnable_toCore]
      exact (List.append_nil _).symm
    | fails index childKey =>
      obtain ⟨hwaiting, flow, hflow, hfast⟩ := ParentBook.verdict_fails hverdict
      have hnone := hkeep parent flow hparent hflow hfast
      exact ⟨_, rfl, book_settleFailFast now hparent hwaiting hnone index childKey,
        sent_settleFailFast now hparent hwaiting hnone index childKey,
        settleFailFast_keep acc.2 now hparent hwaiting hnone childKey⟩

/-- The second phase decides one more flow. -/
theorem Decides.step {s : Store V} {reports : List (FlowChildReport V)} {r : Recording V}
    {done : List JobId} {acc : List ReportResult × Store V} (h : Decides s reports r done acc)
    (now : Millis) (hsub : r.2.Sublist reports.zipIdx) {flowId : JobId} (hnew : flowId ∉ done)
    {touch : Touch} (htouch : noted Prod.snd (ofFlow r.2 flowId) = some touch.pair)
    (hkeep : ∀ p flow, (r.1 flowId).parent = some p → p.flow = some flow → flow.failFast = true →
      ∀ job, s.jobs.get? flowId = some job → job.keep = none) :
    Decides s reports r (done ++ [flowId]) (settleTouched now reports acc (flowId, touch)) := by
  have hbook : acc.2.toCore.book flowId = r.1 flowId := by
    rw [h.decided.enacted]
    exact if_neg hnew
  have hplaced : ∀ e ∈ ofFlow r.2 flowId, reports[e.2]? = some e.1 := fun e he =>
    List.mem_zipIdx_iff_getElem?.mp (hsub.subset (mem_ofFlow.mp he).1)
  obtain ⟨s', heq, hbook', hsent, hkept⟩ :=
    settleTouched_enacts now h.keyed flowId hplaced htouch (by
      intro parent flow hparent hflow hfast
      have hp : (r.1 flowId).parent = some (parentBook parent) := by
        rw [← hbook]
        exact congrArg (Option.map parentBook) hparent
      have hsame := h.keep flowId
      rw [hparent, Option.map_some] at hsame
      obtain ⟨job, hjob, hjobkeep⟩ := Option.map_eq_some_iff.mp hsame.symm
      rw [← hjobkeep]
      exact hkeep _ flow hp hflow hfast job hjob)
  have hkeyed : (settleTouched now reports acc (flowId, touch)).2.toCore.Keyed :=
    (settleTouched_does now reports acc (flowId, touch) h.keyed).keyed h.keyed
  rw [heq] at hkeyed ⊢
  rw [hbook] at hbook' hsent ⊢
  refine ⟨hkeyed, ?_, fun id => (hkept id).trans (h.keep id)⟩
  rw [answerOf_resultAt, hbook', hsent]
  exact h.decided.step hsub hnew

/-- No reported parent that fails fast has a retention policy. -/
def Store.Unpruned (s : Store V) (reports : List (FlowChildReport V)) : Prop :=
  ∀ report ∈ reports, ∀ job, s.jobs.get? report.flowId = some job →
    ∀ flow, job.flow = some flow → flow.failFast = true → job.keep = none

/-- The driver does to the books what the reports say. -/
theorem recordChildResults_books {s : Store V} (hk : s.toCore.Keyed) (now : Millis)
    {reports : List (FlowChildReport V)} (hunpruned : s.Unpruned reports) :
    answerOf (recordChildResults s now reports).1 = Books.answer s.toCore.book reports ∧
      (recordChildResults s now reports).2.toCore.book = Books.after s.toCore.book reports ∧
      (recordChildResults s now reports).2.toCore.sent.Perm
        (s.toCore.sent ++ Books.sent s.toCore.book reports) := by
  have hfirst := recorded_follows hk reports
  have hsub : (Books.recorded s.toCore.book reports).2.Sublist reports.zipIdx :=
    Books.accepted_sublist _ _
  generalize hr : Books.recorded s.toCore.book reports = r at hfirst hsub
  have hkeep : ∀ flowId, flowId ∈ Books.touched r →
      ∀ p flow, (r.1 flowId).parent = some p → p.flow = some flow → flow.failFast = true →
      ∀ job, s.jobs.get? flowId = some job → job.keep = none := by
    intro flowId htouched p flow hp hflow hfast job hjob
    subst hr
    obtain ⟨report, hreport, rfl, p₀, flow₀, hp₀, hflow₀, hsame⟩ :=
      Books.touched_manifest htouched hp hflow
    have hbook : some (parentBook job) = some p₀ :=
      (congrArg (Option.map parentBook) hjob).symm.trans hp₀
    obtain rfl := Option.some.inj hbook
    exact hunpruned report hreport job hjob flow₀ hflow₀ (hsame.trans hfast)
  have hstart : Decides s reports r []
      ((recorded s reports).results, { s with toCore := (recorded s reports).core }) := by
    refine ⟨hfirst.keyed, ?_, hfirst.keep⟩
    have hdecided := Books.Decided.start r.1 reports r s.toCore.sent
    rw [← hfirst.results, ← hfirst.book] at hdecided
    have hsent : (recorded s reports).core.sent = s.toCore.sent := by
      rw [Core.sent, hfirst.outbox]
      rfl
    rw [← hsent] at hdecided ⊢
    rw [← hfirst.book]
    exact hdecided
  obtain ⟨acc, hok, hlast⟩ := foldlM_decides (ε := Empty)
    (f := fun acc entry => .ok (settleTouched now reports acc entry))
    Prod.fst (recorded s reports).touched.entries (recorded s reports).touched.nodup
    (fun done acc entry hentry hnew h => by
      have htouch := hfirst.touched entry.1
      rw [JsMap.get?_eq_some.mpr hentry] at htouch
      exact ⟨_, rfl, h.step now hsub hnew htouch.symm
        (hkeep entry.1 ((hfirst.touched_iff entry.1).mp (List.mem_map_of_mem hentry)))⟩) hstart
  obtain rfl : recordChildResults s now reports = acc :=
    Except.ok.inj ((List.foldlM_pure (m := Except Empty)).symm.trans hok)
  exact hlast.decided.all hr.symm (recorded s reports).touched.nodup hfirst.touched_iff
    fun _ _ => rfl

/-! ## Cutting and reordering a batch -/

/-- Consecutive calls at one clock value, their answers in one list. -/
def deliver (s : Store V) (now : Millis) :
    List (List (FlowChildReport V)) → List ReportResult × Store V
  | [] => ([], s)
  | chunk :: chunks =>
    let (results, s) := recordChildResults s now chunk
    let (rest, s) := deliver s now chunks
    (results ++ rest, s)

/-- No reported flow fails fast. -/
def Store.SlowFlows (s : Store V) (reports : List (FlowChildReport V)) : Prop :=
  ∀ report ∈ reports, ∀ job, s.jobs.get? report.flowId = some job →
    ∀ flow, job.flow = some flow → flow.failFast = false

/-- How often the answers say that the parent of the flow settled. -/
def settleCount (reports : List (FlowChildReport V)) (results : List ReportResult)
    (flowId : JobId) : ℕ :=
  (reports.zip results).countP fun e => decide (e.1.flowId = flowId) && e.2.parentSettled

theorem slow_book {s : Store V} {reports : List (FlowChildReport V)} (h : s.SlowFlows reports) :
    Books.Slow s.toCore.book reports := by
  intro report hreport p hp flow hflow
  obtain ⟨job, hjob, rfl⟩ := Option.map_eq_some_iff.mp hp
  exact h report hreport job hjob flow hflow

theorem unpruned_of_slow {s : Store V} {reports : List (FlowChildReport V)}
    (h : Books.Slow s.toCore.book reports) : s.Unpruned reports := by
  intro report hreport job hjob flow hflow hfast
  have hslow := h report hreport (parentBook job) (congrArg (Option.map parentBook) hjob) flow hflow
  rw [hfast] at hslow
  cases hslow

theorem applied_answer {B : Books V} {reports : List (FlowChildReport V)}
    {results : List ReportResult} (h : answerOf results = B.answer reports) :
    results.map (·.applied) = B.applied reports := by
  rw [Books.applied, ← h, answerOf, List.map_map]
  rfl

theorem settleCount_answer {B : Books V} {reports : List (FlowChildReport V)}
    {results : List ReportResult} (h : answerOf results = B.answer reports) (flowId : JobId) :
    settleCount reports results flowId = B.settles reports flowId := by
  rw [Books.settles, ← h, answerOf, List.zip_map_right, List.countP_map]
  rfl

/-- Consecutive calls do to the books what one call with all the reports does. -/
theorem deliver_books (now : Millis) (chunks : List (List (FlowChildReport V))) {s : Store V}
    (hk : s.toCore.Keyed) (hslow : Books.Slow s.toCore.book chunks.flatten) :
    (deliver s now chunks).1.map (·.applied) = Books.applied s.toCore.book chunks.flatten ∧
      (deliver s now chunks).1.length = chunks.flatten.length ∧
      (deliver s now chunks).2.toCore.book = Books.after s.toCore.book chunks.flatten ∧
      ∀ flowId, settleCount chunks.flatten (deliver s now chunks).1 flowId =
        Books.settles s.toCore.book chunks.flatten flowId := by
  induction chunks generalizing s with
  | nil =>
    refine ⟨rfl, rfl, ?_, fun _ => rfl⟩
    rw [List.flatten_nil, Books.after_of_slow (fun _ h => by cases h)]
    exact (funext fun flowId => FlowBook.resumed_false _).symm
  | cons chunk chunks ih =>
    rw [List.flatten_cons] at hslow ⊢
    obtain ⟨hfirst, hrest⟩ := hslow.append
    obtain ⟨hanswer, hafter, -⟩ := recordChildResults_books hk now (unpruned_of_slow hfirst)
    have hkeyed := (recordChildResults_does hk now chunk).keyed hk
    have hlength : (recordChildResults s now chunk).1.length = chunk.length := by
      have hlength := congrArg List.length hanswer
      simpa [Books.answer, answerOf] using hlength
    obtain ⟨happlied, hlen, hbook, hsettles⟩ := ih hkeyed (by rw [hafter]; exact hrest)
    rw [hafter] at happlied hbook hsettles
    have hparts : deliver s now (chunk :: chunks) =
        ((recordChildResults s now chunk).1 ++
            (deliver (recordChildResults s now chunk).2 now chunks).1,
          (deliver (recordChildResults s now chunk).2 now chunks).2) := rfl
    rw [hparts]
    refine ⟨?_, ?_, ?_, fun flowId => ?_⟩
    · rw [List.map_append, happlied, applied_answer hanswer, Books.applied_append hfirst]
    · rw [List.length_append, List.length_append, hlength, hlen]
    · rw [hbook, Books.after_append hslow]
    · rw [Books.settles_append hslow, settleCount, List.zip_append hlength.symm, List.countP_append,
        ← settleCount_answer hanswer, ← hsettles flowId]
      rfl

/-- Without fail-fast, however a batch is cut, the reports apply alike, the books end alike and each
parent settles as often; when the reports are for different rows their order does not matter
either. -/
theorem reports_batch_freely {s : Store V} (h : Reachable Initial Next s) (now : Millis)
    {reports : List (FlowChildReport V)} (hslow : s.SlowFlows reports) :
    (∀ chunks : List (List (FlowChildReport V)), chunks.flatten = reports →
      (deliver s now chunks).1.map (·.applied) =
          (recordChildResults s now reports).1.map (·.applied) ∧
        (deliver s now chunks).2.toCore.book = (recordChildResults s now reports).2.toCore.book ∧
        ∀ flowId, settleCount reports (deliver s now chunks).1 flowId =
          settleCount reports (recordChildResults s now reports).1 flowId) ∧
    ((reports.map fun report => (report.flowId, report.childKey)).Nodup →
      ∀ chunks : List (List (FlowChildReport V)), chunks.flatten.Perm reports →
        (chunks.flatten.zip ((deliver s now chunks).1.map (·.applied))).Perm
            (reports.zip ((recordChildResults s now reports).1.map (·.applied))) ∧
          (deliver s now chunks).2.toCore.book = (recordChildResults s now reports).2.toCore.book ∧
          ∀ flowId, settleCount chunks.flatten (deliver s now chunks).1 flowId =
            settleCount reports (recordChildResults s now reports).1 flowId) := by
  have hk := reachable_keyed h
  have hbooks := slow_book hslow
  obtain ⟨hanswer, hafter, -⟩ := recordChildResults_books hk now (unpruned_of_slow hbooks)
  have hsettles := settleCount_answer hanswer
  rw [applied_answer hanswer, hafter]
  refine ⟨fun chunks hflatten => ?_, fun hkeys chunks hperm => ?_⟩
  · subst hflatten
    obtain ⟨hflags, -, hbook, hcount⟩ := deliver_books now chunks hk hbooks
    exact ⟨hflags, hbook, fun flowId => (hcount flowId).trans (hsettles flowId).symm⟩
  · obtain ⟨hflags, -, hbook, hcount⟩ := deliver_books now chunks hk (hbooks.perm hperm.symm)
    rw [hflags]
    refine ⟨(Books.applied_perm hperm.symm hkeys _).symm, ?_, fun flowId => ?_⟩
    · rw [hbook, Books.after_perm hperm.symm hkeys hbooks]
    · rw [hcount, hsettles, Books.settles_perm hperm.symm hkeys hbooks]

/-- Both children of a flow, one of them twice: cut in two, or in one call. -/
theorem reports_batch_freely_twoChildren :
    (deliver (execs Store.empty twoChildren) 4
        [[⟨"p", "b", .completed, none, none⟩], [⟨"p", "b", .failed, none, none⟩]]).1.map (·.applied) =
      [true, false] := by
  have hslow : (execs Store.empty twoChildren).SlowFlows
      [⟨"p", "b", .completed, none, none⟩, ⟨"p", "b", .failed, none, none⟩] := by
    have hjob : ∃ job flow, (execs Store.empty twoChildren).jobs.get? "p" = some job ∧
        job.flow = some flow ∧ flow.failFast = false := ⟨_, _, rfl, rfl, rfl⟩
    obtain ⟨job₀, flow₀, hjob₀, hflow₀, hfast⟩ := hjob
    intro report hreport job hjob flow hflow
    have hid : report.flowId = "p" := by
      simp only [List.mem_cons, List.not_mem_nil, or_false] at hreport
      rcases hreport with rfl | rfl <;> rfl
    rw [hid, hjob₀] at hjob
    obtain rfl := Option.some.inj hjob
    rw [hflow₀] at hflow
    rw [← Option.some.inj hflow]
    exact hfast
  have h := (reports_batch_freely (reachable_next twoChildren) 4 hslow).1
    [[⟨"p", "b", .completed, none, none⟩], [⟨"p", "b", .failed, none, none⟩]] rfl
  rw [h.1]
  rfl

end EffectMq.Memory
