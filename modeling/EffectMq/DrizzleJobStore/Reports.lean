import EffectMq.Reports
import EffectMq.DrizzleJobStore.Tables
import EffectMq.Library.Chunks
import EffectMq.Library.CodeUnits
import EffectMq.Library.Codes

/-! # Child reports in the Postgres driver

`recordChildResults` of `DrizzleJobStore.ts`: the first report for each row goes into a bulk update,
the reports that applied are counted per flow, and the flows are settled in the order of their ids.
The transaction does to the books of the tables what `Books.after` says.
-/

namespace EffectMq.Drizzle
set_option autoImplicit false
set_option maxHeartbeats 250000

variable {V : Type}

/-! ## Parameters -/

inductive ReportError
  | invalidText
  | statement (error : SqlError)
  deriving DecidableEq, Repr

/-- A `text` parameter holds no NUL. -/
def storableText (text : String) : Bool := !text.toList.contains '\u0000'

section Batch

-- which values a `jsonb` parameter takes: none with a NUL in a string
variable (accepts : V → Bool)

def storableReport (report : FlowChildReport V) : Bool :=
  storableText report.flowId && storableText report.childKey && report.exit.all accepts &&
    report.failedReason.all storableText

/-! ## Phase 1a: the rows -/

def candidateKey (report : FlowChildReport V) : String :=
  report.flowId ++ "\u0000" ++ report.childKey

def addCandidate (acc : List String × List (Placed V)) (e : Placed V) :
    List String × List (Placed V) :=
  if candidateKey e.1 ∈ acc.1 then acc else (candidateKey e.1 :: acc.1, acc.2 ++ [e])

/-- The first report for each row. -/
def candidates (reports : List (FlowChildReport V)) : List (Placed V) :=
  (reports.zipIdx.foldl addCandidate ([], [])).2

def Tables.pendingRow (t : Tables V) (flowId : JobId) (childKey : String) : Bool :=
  (t.flowChildren.get? (flowId, childKey)).any fun row => decide (row.status = .pending)

def reportRow (row : FlowChildRow V) (report : FlowChildReport V) : FlowChildRow V :=
  { row with
    status := report.outcome.toChildStatus, exit := report.exit,
    failedReason := report.failedReason, cascaded := true }

/-- What the `UPDATE` makes of a row: the report for it, if it is pending. -/
def updatedRow (chunk : List (Placed V)) (member : JobId × String) (row : FlowChildRow V) :
    FlowChildRow V :=
  if row.status = .pending then
    match chunk.find? fun e => decide ((e.1.flowId, e.1.childKey) = member) with
    | some e => reportRow row e.1
    | none => row
  else row

/-- One `UPDATE … FROM (VALUES …)`, which returns the places of the reports that applied. -/
def updateRows (acc : List ℕ × Tables V) (chunk : List (Placed V)) :
    Except ReportError (List ℕ × Tables V) :=
  let (applied, t) := acc
  if chunk.all fun e => storableReport accepts e.1 then
    .ok (applied ++ (chunk.filter fun e => t.pendingRow e.1.flowId e.1.childKey).map Prod.snd,
      { t with flowChildren := t.flowChildren.mapValues (updatedRow chunk) })
  else .error .invalidText

end Batch

/-! ## The tallies -/

structure Touch where
  appliedCount : ℕ
  completed : ℕ
  failed : ℕ
  cancelled : ℕ
  firstAppliedFailed : Option ℕ
  lastApplied : ℕ
  deriving DecidableEq

def touchReport (touch : Touch) (outcome : TerminalState) (index : ℕ) : Touch where
  appliedCount := touch.appliedCount + 1
  completed := touch.completed + if outcome = .completed then 1 else 0
  failed := touch.failed + if outcome = .failed then 1 else 0
  cancelled := touch.cancelled + if outcome = .cancelled then 1 else 0
  firstAppliedFailed :=
    touch.firstAppliedFailed.or (if outcome = .failed then some index else none)
  lastApplied := index

def tally (applied : List ℕ) (touched : JsMap JobId Touch) (e : Placed V) : JsMap JobId Touch :=
  if e.2 ∈ applied then
    let touch := (touched.get? e.1.flowId).getD ⟨0, 0, 0, 0, none, e.2⟩
    touched.set e.1.flowId (touchReport touch e.1.outcome e.2)
  else touched

/-- The applied reports of each flow, in batch order. -/
def tallies (reports : List (FlowChildReport V)) (applied : List ℕ) : JsMap JobId Touch :=
  reports.zipIdx.foldl (tally applied) ∅

/-- `toSorted()`: by code units. -/
def sortedKeys (touched : JsMap JobId Touch) : List JobId :=
  touched.keys.insertionSort fun a b => CodeUnits.units a ≤ CodeUnits.units b

/-! ## Phases 1b and 2: the parents -/

/-- The transaction: the positional results, the tables and the value of the `seq` sequence. -/
structure ReportTx (V : Type) where
  results : List (Bool × Bool)
  tables : Tables V
  seq : ℕ

def putJob (t : Tables V) (id : JobId) (row : JobRow V) : Tables V :=
  { t with jobs := t.jobs.set id row }

def countTouch (flow : FlowState) (touch : Touch) : FlowState :=
  { flow with
    pending := flow.pending - touch.appliedCount
    completed := flow.completed + touch.completed
    failed := flow.failed + touch.failed
    cancelled := flow.cancelled + touch.cancelled }

def cancelRow (row : FlowChildRow V) : FlowChildRow V :=
  if row.status = .pending then { row with status := .cancelled, cascaded := false } else row

def Tables.pendingRows (t : Tables V) (flowId : JobId) : ℕ :=
  t.flowChildren.entries.countP fun e =>
    decide (e.1.1 = flowId) && decide (e.2.status = .pending)

/-- The `UPDATE` and how many rows it returned. -/
def cancelPendingChildren (t : Tables V) (flowId : JobId) : ℕ × Tables V :=
  (t.pendingRows flowId,
    { t with flowChildren := t.flowChildren.mapValues fun member row =>
        if member.1 = flowId then cancelRow row else row })

def failFastReason (childKey : String) : String :=
  "effect-mq: flow child \"" ++ childKey ++ "\" failed"

/-- The store-side settle of a fail-fast parent. -/
def settleFailFast (t : Tables V) (flowId : JobId) (row : JobRow V) (childKey : String)
    (now : Millis) : Except SqlError (Tables V) :=
  let (marked, t) := cancelPendingChildren t flowId
  let t := putJob t flowId { row with
    state := .failed, finishedAt := some now, failedReason := some (failFastReason childKey),
    cancelRequested := false,
    flow := row.flow.map fun flow =>
      { flow with pending := 0, cancelled := flow.cancelled + marked } }
  (insertAttempt t flowId .failed row.processedAt now none).bind fun t =>
    let t := appendOutbox t row.parent .failed none (some (failFastReason childKey))
    let t := releaseDedupe t row.name row.dedupeKey flowId now
    applyKeep t row.name .failed row.keep now

/-- One flow of the loop: its counters move, then it settles at most once, fail-fast first. -/
def settleTouched (reports : List (FlowChildReport V)) (touched : JsMap JobId Touch) (now : Millis)
    (tx : ReportTx V) (flowId : JobId) : Except ReportError (ReportTx V) :=
  match touched.get? flowId, tx.tables.jobs.get? flowId with
  | some touch, some row =>
    match row.flow with
    | none => .ok tx
    | some flow =>
      let flow := countTouch flow touch
      let row := { row with flow := some flow }
      let t := putJob tx.tables flowId row
      if row.state ≠ .waitingChildren then .ok { tx with tables := t }
      else
        match (if flow.failFast then touch.firstAppliedFailed else none).bind
            (fun index => (reports[index]?).map (index, ·)) with
        | some (index, report) =>
          match settleFailFast t flowId row report.childKey now with
          | .error error => .error (.statement error)
          | .ok t => .ok { tx with tables := t, results := tx.results.set index (true, true) }
        | none =>
          if flow.pending = 0 then
            .ok { results := tx.results.set touch.lastApplied (true, true)
                  tables := putJob t flowId
                    { row with state := .waiting, runAt := now, seq := tx.seq + 1 }
                  seq := tx.seq + 1 }
          else .ok { tx with tables := t }
  | _, _ => .ok tx

/-- The transaction; `seq` is the last value drawn from the sequence. -/
def recordChildResults (accepts : V → Bool) (t : Tables V) (seq : ℕ)
    (reports : List (FlowChildReport V)) (now : Millis) :
    Except ReportError (List (Bool × Bool) × Tables V) :=
  (((candidates reports).chunks 200).foldlM (updateRows accepts) ([], t)).bind fun (applied, t) =>
    let results := reports.zipIdx.map fun e => (decide (e.2 ∈ applied), false)
    let touched := tallies reports applied
    ((sortedKeys touched).foldlM (settleTouched reports touched now) ⟨results, t, seq⟩).map
      fun tx => (tx.results, tx.tables)

/-! ## Books -/

def rowBook (row : FlowChildRow V) : RowBook V :=
  ⟨row.status, row.exit, row.failedReason, row.cascaded⟩

def parentBook (attempts : List (AttemptRecord V)) (row : JobRow V) : ParentBook V :=
  ⟨row.state, row.flow, row.exit, row.failedReason, row.parent, attempts.map (·.outcome)⟩

/-- A flow of the tables. -/
def Tables.book (t : Tables V) : Books V := fun flowId =>
  { rows := fun childKey => (t.flowChildren.get? (flowId, childKey)).map rowBook
    pendingRows := t.pendingRows flowId
    parent := (t.jobs.get? flowId).map (parentBook (t.attempts flowId)) }

theorem Tables.pends_book (t : Tables V) (flowId : JobId) (childKey : String) :
    (t.book flowId).pends childKey = t.pendingRow flowId childKey := by
  rw [FlowBook.pends, Tables.book, Option.any_map]
  rfl

def Tables.sent (t : Tables V) : List (String × String × FlowChildReport V) :=
  t.flowOutbox.map fun entry => (entry.flowName, entry.parentStoreKey, entry.report)

/-! ## The first report for each row -/

theorem notMem_of_storable {text : String} (h : storableText text = true) :
    '\u0000' ∉ text.toList := by
  simpa [storableText] using h

theorem candidateKey_target {report report' : FlowChildReport V}
    (h : storableText report.flowId = true) (h' : storableText report'.flowId = true)
    (hkey : candidateKey report = candidateKey report') : report.target = report'.target := by
  have hlist := congrArg String.toList hkey
  simp only [candidateKey, String.toList_append, List.append_assoc] at hlist
  obtain ⟨hflow, hchild⟩ := Codes.cut_separator (c := '\u0000') (notMem_of_storable h)
    (notMem_of_storable h') hlist
  exact Prod.ext (String.toList_inj.mp hflow) (String.toList_inj.mp hchild)

/-- The batch with its first reports only: what applies is the same. -/
structure Firsts (es : List (Placed V)) (acc : List String × List (Placed V)) : Prop where
  sublist : acc.2.Sublist es
  nodup : (acc.2.map (·.1.target)).Nodup
  seen : ∀ key, key ∈ acc.1 ↔ ∃ e ∈ acc.2, candidateKey e.1 = key
  same : ∀ B : Books V, B.recordAll acc.2 = B.recordAll es

theorem firsts (es : List (Placed V)) (h : ∀ e ∈ es, storableText e.1.flowId = true) :
    Firsts es (es.foldl addCandidate ([], [])) := by
  induction es using List.reverseRecOn with
  | nil => exact ⟨.slnil, List.nodup_nil, fun _ => by simp, fun _ => rfl⟩
  | append_singleton es e ih =>
    have hes := ih fun e' he' => h e' (List.mem_append_left _ he')
    have he := h e (List.mem_append_right _ (List.mem_singleton.mpr rfl))
    rw [List.foldl_append, List.foldl_cons, List.foldl_nil, addCandidate]
    generalize es.foldl addCandidate ([], []) = acc at hes
    split
    · rename_i hseen
      obtain ⟨e', he', hkey⟩ := (hes.seen _).mp hseen
      have hmem := hes.sublist.subset he'
      refine ⟨hes.sublist.trans (List.sublist_append_left es [e]), hes.nodup, hes.seen, fun B => ?_⟩
      rw [hes.same, Books.recordAll_repeat B hmem
        (candidateKey_target (h e' (List.mem_append_left _ hmem)) he hkey)]
    · rename_i hnew
      refine ⟨hes.sublist.append (.refl _), ?_, fun key => ?_, fun B => ?_⟩
      · rw [List.map_append, List.nodup_append]
        refine ⟨hes.nodup, List.nodup_singleton _, ?_⟩
        intro target htarget _ hlast heq
        obtain ⟨e', he', rfl⟩ := List.mem_map.mp htarget
        rw [List.mem_singleton.mp hlast] at heq
        obtain ⟨hflow, hchild⟩ := Prod.mk.inj heq
        refine hnew ((hes.seen _).mpr ⟨e', he', ?_⟩)
        rw [candidateKey, candidateKey, hflow, hchild]
      · rw [List.mem_cons, hes.seen]
        simp only [List.mem_append, List.mem_singleton]
        constructor
        · rintro (rfl | ⟨e', he', hkey⟩)
          · exact ⟨e, .inr rfl, rfl⟩
          · exact ⟨e', .inl he', hkey⟩
        · rintro ⟨e', he' | rfl, hkey⟩
          · exact .inr ⟨e', he', hkey⟩
          · exact .inl hkey.symm
      · rw [Books.recordAll_snoc, Books.recordAll_snoc, hes.same]

/-! ## One report at a time -/

/-- The update of one row. -/
def updateRow (acc : List ℕ × Tables V) (e : Placed V) : List ℕ × Tables V :=
  if acc.2.pendingRow e.1.flowId e.1.childKey then
    (acc.1 ++ [e.2],
      { acc.2 with flowChildren := acc.2.flowChildren.modify (e.1.flowId, e.1.childKey) (reportRow · e.1) })
  else acc

theorem updatedRow_cons (e : Placed V) (chunk : List (Placed V)) (member : JobId × String)
    (row : FlowChildRow V) :
    updatedRow (e :: chunk) member row = updatedRow chunk member (updatedRow [e] member row) := by
  by_cases hpending : row.status = .pending
  · by_cases hmember : (e.1.flowId, e.1.childKey) = member
    · have hdone : (reportRow row e.1).status ≠ .pending := toChildStatus_ne_pending _
      have hfirst : ∀ rest, updatedRow (e :: rest) member row = reportRow row e.1 := by
        intro rest
        simp [updatedRow, hpending, hmember]
      rw [hfirst, hfirst, updatedRow, if_neg hdone]
    · have hskip : ∀ rest, updatedRow (e :: rest) member row = updatedRow rest member row := by
        intro rest
        simp [updatedRow, hmember]
      rw [hskip, hskip]
      simp [updatedRow]
  · simp [updatedRow, hpending]

/-- The update of one row, as a statement. -/
theorem updateRow_tables (acc : List ℕ × Tables V) (e : Placed V) :
    (updateRow acc e).2 =
      { acc.2 with flowChildren := acc.2.flowChildren.mapValues (updatedRow [e]) } := by
  have hrow : ∀ member row, acc.2.flowChildren.get? member = some row →
      updatedRow [e] member row =
        if acc.2.pendingRow e.1.flowId e.1.childKey = true ∧ member = (e.1.flowId, e.1.childKey)
        then reportRow row e.1 else row := by
    intro member row hget
    by_cases hmember : member = (e.1.flowId, e.1.childKey)
    · subst hmember
      simp [updatedRow, Tables.pendingRow, hget]
    · simp [updatedRow, hmember, Ne.symm hmember]
  cases hpends : acc.2.pendingRow e.1.flowId e.1.childKey with
  | true =>
    have hrows : acc.2.flowChildren.modify (e.1.flowId, e.1.childKey) (reportRow · e.1) =
        acc.2.flowChildren.mapValues (updatedRow [e]) := by
      apply JsMap.mapValues_congr
      intro member row hget
      rw [hrow member row hget, hpends]
      simp
    rw [updateRow, if_pos hpends, hrows]
  | false =>
    have hrows : acc.2.flowChildren.mapValues (updatedRow [e]) = acc.2.flowChildren := by
      conv_rhs => rw [← JsMap.mapValues_self acc.2.flowChildren]
      apply JsMap.mapValues_congr
      intro member row hget
      rw [hrow member row hget, hpends]
      simp
    rw [updateRow, if_neg (by rw [hpends]; decide), hrows]

theorem pendingRow_updateRow (acc : List ℕ × Tables V) (e : Placed V) {flowId : JobId}
    {childKey : String} (h : (flowId, childKey) ≠ (e.1.flowId, e.1.childKey)) :
    (updateRow acc e).2.pendingRow flowId childKey = acc.2.pendingRow flowId childKey := by
  unfold updateRow
  split
  · rw [Tables.pendingRow, JsMap.get?_modify, if_neg h, Tables.pendingRow]
  · rfl

/-- The bulk update of distinct rows, one by one. -/
theorem updateRows_eq (accepts : V → Bool) (chunk : List (Placed V)) (acc : List ℕ × Tables V)
    (hstorable : ∀ e ∈ chunk, storableReport accepts e.1 = true)
    (hnodup : (chunk.map (·.1.target)).Nodup) :
    updateRows accepts acc chunk = .ok (chunk.foldl updateRow acc) := by
  have hbulk : ∀ (chunk : List (Placed V)) (acc : List ℕ × Tables V),
      (chunk.map (·.1.target)).Nodup →
      chunk.foldl updateRow acc =
        (acc.1 ++ (chunk.filter fun e => acc.2.pendingRow e.1.flowId e.1.childKey).map Prod.snd,
          { acc.2 with flowChildren := acc.2.flowChildren.mapValues (updatedRow chunk) }) := by
    intro chunk
    induction chunk with
    | nil =>
      intro acc _
      have hsame : acc.2.flowChildren.mapValues (updatedRow []) = acc.2.flowChildren := by
        conv_rhs => rw [← JsMap.mapValues_self acc.2.flowChildren]
        apply JsMap.mapValues_congr
        intro member row _
        simp [updatedRow]
      rw [hsame]
      simp
    | cons e chunk ih =>
      intro acc hnodup
      rw [List.map_cons, List.nodup_cons] at hnodup
      rw [List.foldl_cons, ih _ hnodup.2, updateRow_tables]
      refine Prod.ext ?_ ?_
      · have hrest : (chunk.filter fun e' => ({ acc.2 with
              flowChildren := acc.2.flowChildren.mapValues (updatedRow [e]) } : Tables V).pendingRow
              e'.1.flowId e'.1.childKey) =
            chunk.filter fun e' => acc.2.pendingRow e'.1.flowId e'.1.childKey := by
          apply List.filter_congr
          intro e' he'
          rw [← updateRow_tables]
          refine pendingRow_updateRow acc e fun heq => hnodup.1 ?_
          exact List.mem_map.mpr ⟨e', he', heq⟩
        dsimp only
        rw [hrest, List.filter_cons]
        unfold updateRow
        split <;> simp
      · simp only [JsMap.mapValues_mapValues, ← updatedRow_cons]
  rw [updateRows, if_pos (List.all_eq_true.mpr hstorable), hbulk chunk acc hnodup]

theorem updateChunks_eq (accepts : V → Bool) (chunks : List (List (Placed V)))
    (acc : List ℕ × Tables V)
    (hstorable : ∀ e ∈ chunks.flatten, storableReport accepts e.1 = true)
    (hnodup : (chunks.flatten.map (·.1.target)).Nodup) :
    chunks.foldlM (updateRows accepts) acc = .ok (chunks.flatten.foldl updateRow acc) := by
  induction chunks generalizing acc with
  | nil => rfl
  | cons chunk chunks ih =>
    rw [List.flatten_cons] at hstorable hnodup
    rw [List.map_append, List.nodup_append] at hnodup
    rw [List.foldlM_cons, updateRows_eq accepts chunk acc
      (fun e he => hstorable e (List.mem_append_left _ he)) hnodup.1, List.flatten_cons,
      List.foldl_append]
    exact ih _ (fun e he => hstorable e (List.mem_append_right _ he)) hnodup.2.1

/-! ## The rows after the bulk update -/

theorem pendingRows_modify {t : Tables V} {flowId : JobId} {childKey : String}
    {row : FlowChildRow V} (hrow : t.flowChildren.get? (flowId, childKey) = some row)
    (hpending : row.status = .pending) {f : FlowChildRow V → FlowChildRow V}
    (hf : (f row).status ≠ .pending) (flowId' : JobId) :
    ({ t with flowChildren := t.flowChildren.modify (flowId, childKey) f } : Tables V).pendingRows
        flowId' =
      if flowId' = flowId then t.pendingRows flowId' - 1 else t.pendingRows flowId' := by
  obtain ⟨before, after, hentries, hmodify⟩ := JsMap.entries_modify hrow f
  simp only [Tables.pendingRows, hentries, hmodify, List.countP_append, List.countP_cons]
  by_cases hflow : flowId' = flowId
  · subst hflow
    simp only [decide_true, Bool.true_and, decide_eq_true_eq, hpending, hf, if_true, if_false]
    omega
  · simp [hflow, Ne.symm hflow]

/-- The rows of one book and the parent of another. -/
def withParent (b : FlowBook V) (parent : Option (ParentBook V)) : FlowBook V :=
  ⟨b.rows, b.pendingRows, parent⟩

/-- The tables after the reports of `r`: the rows are there, the parents have not moved. -/
structure RowsMoved (t₀ : Tables V) (acc : List ℕ × Tables V) (r : Recording V) : Prop where
  applied : acc.1 = r.2.map Prod.snd
  book : acc.2.book = fun flowId => withParent (r.1 flowId) (t₀.book flowId).parent
  jobs : acc.2.jobs = t₀.jobs
  attempts : acc.2.attempts = t₀.attempts
  outbox : acc.2.flowOutbox = t₀.flowOutbox

theorem RowsMoved.step {t₀ : Tables V} {acc : List ℕ × Tables V} {r : Recording V}
    (h : RowsMoved t₀ acc r) (e : Placed V) : RowsMoved t₀ (updateRow acc e) (Books.step r e) := by
  have hpends : (r.1 e.1.flowId).pends e.1.childKey =
      acc.2.pendingRow e.1.flowId e.1.childKey := by
    rw [← Tables.pends_book, h.book]
    rfl
  cases hpending : acc.2.pendingRow e.1.flowId e.1.childKey with
  | false =>
    rw [updateRow, if_neg (by rw [hpending]; decide), Books.step_of_not r e (hpends.trans hpending)]
    exact h
  | true =>
    rw [updateRow, if_pos hpending, Books.step_of_pends r e (hpends.trans hpending)]
    obtain ⟨row, hrow, hdecide⟩ := (Option.any_eq_true _ _).mp hpending
    have hstatus : row.status = .pending := of_decide_eq_true hdecide
    have hbook := h.book
    refine ⟨by simp [h.applied], ?_, h.jobs, h.attempts, h.outbox⟩
    funext flowId
    have hflowBook := congrFun hbook flowId
    dsimp only at hflowBook ⊢
    by_cases hflow : flowId = e.1.flowId
    · subst hflow
      rw [Function.update_self]
      apply FlowBook.ext
      · funext key
        have hrows := congrFun (congrArg FlowBook.rows hflowBook) key
        simp only [Tables.book, withParent] at hrows
        simp only [Tables.book, withParent, JsMap.get?_modify, Prod.mk.injEq, true_and,
          FlowBook.apply]
        by_cases hkey : key = e.1.childKey
        · rw [if_pos hkey, hkey, Function.update_self, hrow]
          rfl
        · rw [if_neg hkey, Function.update_of_ne hkey, hrows]
      · have hcount := congrArg FlowBook.pendingRows hflowBook
        simp only [Tables.book, withParent] at hcount
        simp only [Tables.book, withParent, FlowBook.apply]
        rw [pendingRows_modify hrow hstatus (toChildStatus_ne_pending _), if_pos rfl, hcount]
      · have hparent := congrArg FlowBook.parent hflowBook
        simp only [Tables.book, withParent] at hparent ⊢
        exact hparent
    · rw [Function.update_of_ne hflow, ← hflowBook]
      apply FlowBook.ext
      · funext key
        simp only [Tables.book, JsMap.get?_modify, Prod.mk.injEq, hflow, false_and, if_false]
      · simp only [Tables.book]
        rw [pendingRows_modify hrow hstatus (toChildStatus_ne_pending _), if_neg hflow]
      · rfl

/-- The bulk update applies the reports that `recorded` accepts. -/
theorem updated_rowsMoved (accepts : V → Bool) (t : Tables V) {reports : List (FlowChildReport V)}
    (hstorable : ∀ report ∈ reports, storableReport accepts report = true) :
    ∃ acc, ((candidates reports).chunks 200).foldlM (updateRows accepts) ([], t) = .ok acc ∧
      RowsMoved t acc (t.book.recorded reports) := by
  have hflow : ∀ e ∈ reports.zipIdx, storableText e.1.flowId = true := by
    intro e he
    have h := hstorable e.1 (List.fst_mem_of_mem_zipIdx he)
    simp only [storableReport, Bool.and_eq_true] at h
    exact h.1.1.1
  have hfirsts := firsts reports.zipIdx hflow
  have hmoved : ∀ (es : List (Placed V)) (acc : List ℕ × Tables V) (r : Recording V),
      RowsMoved t acc r → RowsMoved t (es.foldl updateRow acc) (es.foldl Books.step r) := by
    intro es
    induction es with
    | nil => exact fun _ _ h => h
    | cons e es ih => exact fun acc r h => ih _ _ (h.step e)
  have hflatten : ((candidates reports).chunks 200).flatten = candidates reports :=
    List.chunks_flatten 199 _
  refine ⟨(candidates reports).foldl updateRow ([], t), ?_, ?_⟩
  · rw [updateChunks_eq accepts _ _ ?_ ?_, hflatten]
    · rw [hflatten]
      intro e he
      exact hstorable e.1 (List.fst_mem_of_mem_zipIdx (hfirsts.sublist.subset he))
    · rw [hflatten]
      exact hfirsts.nodup
  · rw [Books.recorded, ← hfirsts.same t.book]
    exact hmoved _ _ _ ⟨rfl, rfl, rfl, rfl, rfl⟩

/-! ## The tallies of the applied reports -/

/-- What the batch knows of a flow. -/
def tallyOf (accepted : List (Placed V)) : Option Touch :=
  accepted.getLast?.map fun last =>
    { appliedCount := accepted.length
      completed := accepted.countP fun e => decide (e.1.outcome = .completed)
      failed := accepted.countP fun e => decide (e.1.outcome = .failed)
      cancelled := accepted.countP fun e => decide (e.1.outcome = .cancelled)
      firstAppliedFailed := (firstFailed accepted).map Prod.snd
      lastApplied := last.2 }

theorem tallyOf_snoc (accepted : List (Placed V)) (e : Placed V) :
    tallyOf (accepted ++ [e]) =
      some (touchReport ((tallyOf accepted).getD ⟨0, 0, 0, 0, none, e.2⟩) e.1.outcome e.2) := by
  have hprior : ∀ last, accepted.getLast? = last → (tallyOf accepted).getD ⟨0, 0, 0, 0, none, e.2⟩ =
      { appliedCount := accepted.length
        completed := accepted.countP fun e => decide (e.1.outcome = .completed)
        failed := accepted.countP fun e => decide (e.1.outcome = .failed)
        cancelled := accepted.countP fun e => decide (e.1.outcome = .cancelled)
        firstAppliedFailed := (firstFailed accepted).map Prod.snd
        lastApplied := (last.map Prod.snd).getD e.2 } := by
    rintro last rfl
    cases hlast : accepted.getLast? with
    | none =>
      rw [List.getLast?_eq_none_iff] at hlast
      subst hlast
      rfl
    | some last => simp [tallyOf, hlast]
  rw [hprior _ rfl, tallyOf, List.getLast?_concat, Option.map_some, touchReport]
  simp only [Option.some.injEq, Touch.mk.injEq, List.length_append, List.length_singleton,
    List.countP_append, List.countP_singleton, decide_eq_true_eq, true_and, and_true]
  rw [firstFailed, List.find?_append, ← firstFailed]
  cases firstFailed accepted with
  | some first => simp
  | none => by_cases hfailed : e.1.outcome = .failed <;> simp [hfailed]

theorem filter_of_sublist {α : Type} {xs ys : List α} {p : α → Bool} (h : xs.Sublist ys)
    (hnodup : ys.Nodup) (hp : ∀ y ∈ ys, p y = true ↔ y ∈ xs) : ys.filter p = xs := by
  induction h with
  | slnil => rfl
  | @cons xs ys y h ih =>
    rw [List.nodup_cons] at hnodup
    have hy : p y = false := by
      rw [Bool.eq_false_iff, ne_eq, hp y List.mem_cons_self]
      exact fun hy => hnodup.1 (h.subset hy)
    rw [List.filter_cons_of_neg (by simp [hy])]
    exact ih hnodup.2 fun y' hy' => hp y' (List.mem_cons_of_mem _ hy')
  | @cons_cons xs ys y h ih =>
    rw [List.nodup_cons] at hnodup
    rw [List.filter_cons_of_pos ((hp y List.mem_cons_self).mpr List.mem_cons_self)]
    congr 1
    refine ih hnodup.2 fun y' hy' => (hp y' (List.mem_cons_of_mem _ hy')).trans ?_
    rw [List.mem_cons, or_iff_right]
    rintro rfl
    exact hnodup.1 hy'

theorem tallies_get? {reports : List (FlowChildReport V)} {accepted : List (Placed V)}
    (hsub : accepted.Sublist reports.zipIdx) (flowId : JobId) :
    (tallies reports (accepted.map Prod.snd)).get? flowId = tallyOf (ofFlow accepted flowId) := by
  have hplaces : (reports.zipIdx.filter fun e => decide (e.2 ∈ accepted.map Prod.snd)) = accepted := by
    have hnodup : reports.zipIdx.Nodup := by
      refine List.Nodup.of_map Prod.snd ?_
      rw [List.zipIdx_map_snd]
      exact List.nodup_range'
    refine filter_of_sublist hsub hnodup fun e he => ?_
    rw [decide_eq_true_eq]
    constructor
    · intro hmem
      obtain ⟨e', he', hplace⟩ := List.mem_map.mp hmem
      have hin := hsub.subset he'
      rw [List.mem_zipIdx_iff_getElem?] at he hin
      rw [hplace, he] at hin
      have hsame : e = e' := Prod.ext (Option.some.inj hin) hplace.symm
      rw [hsame]
      exact he'
    · exact fun hmem => List.mem_map_of_mem hmem
  have hfold : ∀ (es done : List (Placed V)) (touched : JsMap JobId Touch),
      (∀ f, touched.get? f = tallyOf (ofFlow done f)) →
      ∀ f, (es.foldl (tally (accepted.map Prod.snd)) touched).get? f =
        tallyOf (ofFlow (done ++ es.filter fun e => decide (e.2 ∈ accepted.map Prod.snd)) f) := by
    intro es
    induction es with
    | nil =>
      intro done touched h f
      rw [List.filter_nil, List.append_nil]
      exact h f
    | cons e es ih =>
      intro done touched h f
      rw [List.foldl_cons]
      by_cases hin : e.2 ∈ accepted.map Prod.snd
      · rw [List.filter_cons_of_pos (by simpa using hin), List.append_cons]
        refine ih (done ++ [e]) _ (fun f' => ?_) f
        rw [tally, if_pos hin, JsMap.get?_set, ofFlow_append, ofFlow_singleton]
        by_cases hflow : f' = e.1.flowId
        · subst hflow
          rw [if_pos rfl, if_pos rfl, tallyOf_snoc, h]
        · rw [if_neg hflow, if_neg (Ne.symm hflow), List.append_nil, h]
      · rw [List.filter_cons_of_neg (by simpa using hin), tally, if_neg hin]
        exact ih done touched h f
  have h := hfold reports.zipIdx [] ∅ (fun _ => rfl) flowId
  rw [List.nil_append, hplaces] at h
  exact h

/-- One statement with the counts does what counting one by one does. -/
theorem countTouch_eq (flow : FlowState) {accepted : List (Placed V)} {touch : Touch}
    (h : tallyOf accepted = some touch) :
    countTouch flow touch =
      accepted.foldl (fun flow e => FlowState.counting flow e.1.outcome) flow := by
  obtain ⟨last, -, rfl⟩ := Option.map_eq_some_iff.mp h
  clear h
  induction accepted using List.reverseRecOn with
  | nil => rfl
  | append_singleton accepted e ih =>
    rw [List.foldl_append, List.foldl_cons, List.foldl_nil, ← ih]
    simp only [countTouch, FlowState.counting, List.length_append, List.length_singleton,
      List.countP_append, List.countP_singleton, decide_eq_true_eq, FlowState.mk.injEq, true_and]
    omega

/-! ## The parents -/

theorem book_putJob (t : Tables V) (flowId : JobId) (row : JobRow V) :
    (putJob t flowId row).book = Function.update t.book flowId
      (withParent (t.book flowId) (some (parentBook (t.attempts flowId) row))) := by
  funext id
  by_cases hid : id = flowId
  · subst hid
    rw [Function.update_self]
    apply FlowBook.ext
    · rfl
    · rfl
    · simp only [Tables.book, putJob, JsMap.get?_set, if_true, withParent, Option.map_some]
  · rw [Function.update_of_ne hid]
    apply FlowBook.ext
    · rfl
    · rfl
    · simp only [Tables.book, putJob, JsMap.get?_set, if_neg hid]

theorem appendOutbox_sent (t : Tables V) (parent : Option ParentEnvelope) (outcome : TerminalState)
    (exit : Option V) (failedReason : Option String) :
    (appendOutbox t parent outcome exit failedReason).sent = t.sent ++
      (parent.map fun parent => (parent.flowName, parent.parentStoreKey,
        { flowId := parent.flowId, childKey := parent.childKey, outcome, exit,
          failedReason })).toList := by
  unfold appendOutbox Tables.sent
  cases parent <;> simp

theorem rowBook_cancelRow (row : FlowChildRow V) : rowBook (cancelRow row) = (rowBook row).marked := by
  by_cases hpending : row.status = .pending <;>
    simp [cancelRow, rowBook, RowBook.marked, hpending]

theorem cancelRow_pending (row : FlowChildRow V) : (cancelRow row).status ≠ .pending := by
  by_cases hpending : row.status = .pending <;> simp [cancelRow, hpending]

theorem insertAttempt_outcomes {t : Tables V} {jobId : JobId} {row : JobRow V}
    (hrow : t.jobs.get? jobId = some row) (outcome : AttemptOutcome) (startedAt : Option Millis)
    (finishedAt : Millis) (exit : Option V) :
    ∃ attempts, insertAttempt t jobId outcome startedAt finishedAt exit = .ok { t with attempts } ∧
      ∀ id, (attempts id).map (·.outcome) =
        (t.attempts id).map (·.outcome) ++ if id = jobId then [outcome] else [] := by
  refine ⟨_, by rw [insertAttempt, if_pos (JsMap.has_eq_true.mpr ⟨row, hrow⟩)], fun id => ?_⟩
  split
  · rename_i hid
    rw [List.map_append, hid]
    rfl
  · rw [List.append_nil]

/-- A parent that fails fast, when it has no policy and no exit. -/
theorem settleFailFast_spec {t : Tables V} {flowId : JobId} {row : JobRow V}
    (hrow : t.jobs.get? flowId = some row) (hkeep : row.keep = none) (hexit : row.exit = none)
    (now : Millis) (index : ℕ) (childKey : String) :
    ∃ t', settleFailFast t flowId row childKey now = .ok t' ∧
      t'.book = Function.update t.book flowId ((t.book flowId).enact (.fails index childKey)) ∧
      t'.sent = t.sent ++ ((t.book flowId).sends (.fails index childKey)).toList ∧
      ∀ id, (t'.jobs.get? id).map (fun row => (row.keep, row.exit)) =
        (t.jobs.get? id).map (fun row => (row.keep, row.exit)) := by
  let failed : JobRow V := { row with
    state := .failed, finishedAt := some now, failedReason := some (failFastReason childKey),
    cancelRequested := false,
    flow := row.flow.map fun flow =>
      { flow with pending := 0, cancelled := flow.cancelled + t.pendingRows flowId } }
  let mid : Tables V := putJob (cancelPendingChildren t flowId).2 flowId failed
  have hmid : mid.jobs.get? flowId = some failed := by
    rw [show mid.jobs = t.jobs.set flowId failed from rfl, JsMap.get?_set, if_pos rfl]
  obtain ⟨attempts, hattempt, houtcomes⟩ :=
    insertAttempt_outcomes hmid .failed row.processedAt now none
  obtain ⟨hjobs, hledger, hchildren⟩ := appendOutbox_frame { mid with attempts } row.parent .failed
    none (some (failFastReason childKey))
  have hsent := appendOutbox_sent { mid with attempts } row.parent .failed none
    (some (failFastReason childKey))
  generalize hposted : appendOutbox { mid with attempts } row.parent .failed none
    (some (failFastReason childKey)) = posted at *
  obtain ⟨hjobs', hledger', hchildren', houtbox'⟩ :=
    releaseDedupe_frame posted row.name row.dedupeKey flowId now
  refine ⟨releaseDedupe posted row.name row.dedupeKey flowId now, ?_, ?_, ?_, ?_⟩
  · have hcancel : settleFailFast t flowId row childKey now =
        (insertAttempt mid flowId .failed row.processedAt now none).bind fun t =>
          applyKeep (releaseDedupe (appendOutbox t row.parent .failed none
            (some (failFastReason childKey))) row.name row.dedupeKey flowId now) row.name .failed
            row.keep now := rfl
    rw [hcancel, hattempt, hkeep]
    change applyKeep (releaseDedupe (appendOutbox { mid with attempts } row.parent .failed none
      (some (failFastReason childKey))) row.name row.dedupeKey flowId now) row.name .failed none now
      = _
    rw [hposted]
    rfl
  · have hrows : ∀ member, posted.flowChildren.get? member =
        (t.flowChildren.get? member).map fun row =>
          if member.1 = flowId then cancelRow row else row := fun member => by
      rw [hchildren]
      exact JsMap.get?_mapValues ..
    funext id
    by_cases hid : id = flowId
    · subst hid
      rw [Function.update_self]
      apply FlowBook.ext
      · funext key
        simp only [Tables.book, hchildren', hrows, if_true, FlowBook.enact, Option.map_map]
        exact congrArg (Option.map · _) (funext rowBook_cancelRow)
      · simp only [Tables.book, FlowBook.enact, Tables.pendingRows, hchildren', hchildren]
        rw [List.countP_eq_zero]
        intro e he
        obtain ⟨e₀, -, rfl⟩ := List.mem_map.mp he
        by_cases hflow : e₀.1.1 = id
        · simp [hflow, cancelRow_pending]
        · simp [hflow]
      · have hparent : (t.book id).parent = some (parentBook (t.attempts id) row) :=
          congrArg (Option.map _) hrow
        have hlast : (releaseDedupe posted row.name row.dedupeKey id now).jobs.get? id =
            some failed := by rw [hjobs', hjobs, hmid]
        rw [FlowBook.enact, hparent]
        simp only [Tables.book, hlast, hledger', hledger, Option.map_some, parentBook, houtcomes,
          if_true]
        rfl
    · rw [Function.update_of_ne hid]
      apply FlowBook.ext
      · funext key
        simp only [Tables.book, hchildren', hrows, if_neg hid, Option.map_id']
      · simp only [Tables.book, Tables.pendingRows, hchildren', hchildren]
        change List.countP _ (t.flowChildren.entries.map _) = _
        rw [List.countP_map]
        apply List.countP_congr
        intro e _
        by_cases hflow : e.1.1 = id
        · simp [hflow, hid]
        · simp [hflow]
      · have hsame : parentBook (attempts id) = parentBook (t.attempts id) := by
          funext other
          rw [parentBook, houtcomes, if_neg hid, List.append_nil, parentBook]
          rfl
        have hother : mid.jobs.get? id = t.jobs.get? id := by
          rw [show mid.jobs = t.jobs.set flowId failed from rfl, JsMap.get?_set, if_neg hid]
        simp only [Tables.book, hjobs', hjobs, hledger', hledger, hother, hsame]
  · have hparent : (t.book flowId).parent = some (parentBook (t.attempts flowId) row) :=
      congrArg (Option.map _) hrow
    rw [Tables.sent, houtbox', ← Tables.sent, hsent, FlowBook.sends, hparent, Option.bind_some,
      parentBook, hexit]
    rfl
  · intro id
    rw [hjobs', hjobs, show mid.jobs = t.jobs.set flowId failed from rfl, JsMap.get?_set]
    split
    · rename_i hid
      rw [hid, hrow]
      rfl
    · rfl

/-- What the parents are asked for: policy and exit. -/
def Tables.held (t : Tables V) (id : JobId) : Option (Option KeepPolicy × Option V) :=
  (t.jobs.get? id).map fun row => (row.keep, row.exit)

theorem held_putJob {t : Tables V} {flowId : JobId} {row : JobRow V}
    (hrow : t.jobs.get? flowId = some row) (row' : JobRow V) (hkeep : row'.keep = row.keep)
    (hexit : row'.exit = row.exit) (id : JobId) : (putJob t flowId row').held id = t.held id := by
  rw [Tables.held, putJob, JsMap.get?_set]
  split
  · rename_i hid
    rw [Tables.held, hid, hrow, Option.map_some, Option.map_some, hkeep, hexit]
  · rfl

/-- A flow whose counters moved to `row`, by the verdict on its parent. -/
theorem settleTouched_eq (now : Millis) {reports : List (FlowChildReport V)}
    {touched : JsMap JobId Touch} {tx : ReportTx V} {flowId : JobId} {accepted : List (Placed V)}
    (hplaced : ∀ e ∈ accepted, reports[e.2]? = some e.1) {touch : Touch}
    (htally : tallyOf accepted = some touch) (htouch : touched.get? flowId = some touch)
    {row : JobRow V} (hrow : tx.tables.jobs.get? flowId = some row) {flow : FlowState}
    (hflow : row.flow = some flow) (attempts : List (AttemptRecord V)) :
    settleTouched reports touched now tx flowId =
      let row := { row with flow := some (countTouch flow touch) }
      let t := putJob tx.tables flowId row
      let v := (parentBook attempts row).verdict accepted
      match v with
      | .stays => .ok { tx with tables := t }
      | .resumes _ =>
        .ok ⟨Books.answerAt tx.results v,
          putJob t flowId { row with state := .waiting, runAt := now, seq := tx.seq + 1 }, tx.seq + 1⟩
      | .fails _ childKey =>
        match settleFailFast t flowId row childKey now with
        | .error error => .error (.statement error)
        | .ok t => .ok { tx with tables := t, results := Books.answerAt tx.results v } := by
  obtain ⟨last, hlast, rfl⟩ := Option.map_eq_some_iff.mp htally
  unfold settleTouched
  simp only [htouch, hrow, hflow]
  generalize hcount : countTouch flow _ = counted
  by_cases hstate : row.state = .waitingChildren
  · rw [if_neg (not_not_intro hstate)]
    simp only [ParentBook.verdict, parentBook, hlast, hstate]
    cases hfast : counted.failFast with
    | true =>
      cases hfail : firstFailed accepted with
      | some e =>
        have hreport := hplaced e (List.mem_of_find?_eq_some hfail)
        simp only [if_true, Option.map_some, Option.bind_some, hreport, ne_eq, not_true_eq_false,
          if_false]
        rfl
      | none => by_cases hzero : counted.pending = 0 <;> simp [hzero, Books.answerAt, Verdict.index]
    | false => by_cases hzero : counted.pending = 0 <;> simp [hzero, Books.answerAt, Verdict.index]
  · simp [ParentBook.verdict, parentBook, hlast, hstate]

/-- One flow of the loop, by the verdict on its book after the reports. -/
theorem settleTouched_enacts (now : Millis) {reports : List (FlowChildReport V)}
    {touched : JsMap JobId Touch} {tx : ReportTx V} {flowId : JobId} {accepted : List (Placed V)}
    (hplaced : ∀ e ∈ accepted, reports[e.2]? = some e.1) {touch : Touch}
    (htally : tallyOf accepted = some touch) (htouch : touched.get? flowId = some touch)
    {b : FlowBook V}
    (hbook : tx.tables.book flowId = withParent b ((tx.tables.jobs.get? flowId).map
      (parentBook (tx.tables.attempts flowId))))
    (hparent : b.parent = ((tx.tables.jobs.get? flowId).map
      (parentBook (tx.tables.attempts flowId))).map fun p =>
        accepted.foldl (fun p e => p.counting e.1.outcome) p)
    (hheld : ∀ row, tx.tables.jobs.get? flowId = some row → row.state = .waitingChildren →
      row.exit = none ∧ ∀ flow, row.flow = some flow → flow.failFast = true → row.keep = none) :
    ∃ tx', settleTouched reports touched now tx flowId = .ok tx' ∧
      tx'.results = Books.answerAt tx.results (b.verdict accepted) ∧
      tx'.tables.book = Function.update tx.tables.book flowId (b.enact (b.verdict accepted)) ∧
      tx'.tables.sent = tx.tables.sent ++ (b.sends (b.verdict accepted)).toList ∧
      ∀ id, tx'.tables.held id = tx.tables.held id := by
  cases hrow : tx.tables.jobs.get? flowId with
  | none =>
    rw [hrow] at hbook hparent
    have hsame : tx.tables.book flowId = b := by
      rw [hbook]
      exact FlowBook.ext rfl rfl hparent.symm
    have hverdict : b.verdict accepted = .stays := by
      rw [FlowBook.verdict, hparent]
      rfl
    refine ⟨tx, ?_, ?_, ?_, ?_, fun _ => rfl⟩
    · rw [settleTouched, htouch, hrow]
    · rw [hverdict]
      rfl
    · rw [hverdict, ← hsame]
      exact (Function.update_eq_self flowId _).symm
    · rw [hverdict]
      exact (List.append_nil _).symm
  | some row =>
    rw [hrow, Option.map_some] at hbook hparent
    rw [Option.map_some, ParentBook.foldl_counting] at hparent
    cases hflow : row.flow with
    | none =>
      have hsame : tx.tables.book flowId = b := by
        rw [hbook]
        refine FlowBook.ext rfl rfl ?_
        rw [hparent]
        simp [withParent, parentBook, hflow]
      have hverdict : b.verdict accepted = .stays := by
        rw [FlowBook.verdict, hparent]
        simp [ParentBook.verdict, parentBook, hflow]
      refine ⟨tx, ?_, ?_, ?_, ?_, fun _ => rfl⟩
      · rw [settleTouched, htouch, hrow]
        simp only [hflow]
      · rw [hverdict]
        rfl
      · rw [hverdict, ← hsame]
        exact (Function.update_eq_self flowId _).symm
      · rw [hverdict]
        exact (List.append_nil _).symm
    | some flow =>
      let row' : JobRow V := { row with flow := some (countTouch flow touch) }
      have hb : b.parent = some (parentBook (tx.tables.attempts flowId) row') := by
        rw [hparent]
        simp [parentBook, row', hflow, countTouch_eq flow htally]
      have hbook' : (putJob tx.tables flowId row').book = Function.update tx.tables.book flowId b := by
        rw [book_putJob, hbook]
        congr 1
        exact FlowBook.ext rfl rfl hb.symm
      have hrow' : (putJob tx.tables flowId row').jobs.get? flowId = some row' := by
        rw [putJob, JsMap.get?_set, if_pos rfl]
      have hheld' := held_putJob hrow row' rfl rfl
      have hat : (putJob tx.tables flowId row').book flowId = b := by
        rw [hbook', Function.update_self]
      rw [settleTouched_eq now hplaced htally htouch hrow hflow (tx.tables.attempts flowId),
        FlowBook.verdict, hb, Option.map_some, Option.getD_some]
      dsimp only
      cases hverdict : (parentBook (tx.tables.attempts flowId) row').verdict accepted with
      | stays => exact ⟨_, rfl, rfl, hbook', (List.append_nil _).symm, hheld'⟩
      | resumes index =>
        refine ⟨_, rfl, rfl, ?_, (List.append_nil _).symm, fun id => ?_⟩
        · rw [book_putJob, hat, hbook', Function.update_idem]
          congr 1
          exact FlowBook.ext rfl rfl (by rw [FlowBook.enact, hb]; rfl)
        · rw [← hheld' id]
          exact held_putJob hrow' { row' with state := .waiting, runAt := now, seq := tx.seq + 1 } rfl rfl id
      | fails index childKey =>
        obtain ⟨hstate, counted, hcounted, hfast⟩ := ParentBook.verdict_fails hverdict
        obtain ⟨hexit, hkeep⟩ := hheld row hrow hstate
        have hslow : flow.failFast = true := by
          rw [← Option.some.inj hcounted] at hfast
          exact hfast
        obtain ⟨t', hok, hbook'', hsent, hheld''⟩ :=
          settleFailFast_spec hrow' (hkeep flow hflow hslow) hexit now index childKey
        refine ⟨⟨_, t', tx.seq⟩, ?_, rfl, ?_, ?_, fun id => (hheld'' id).trans (hheld' id)⟩
        · dsimp only
          rw [hok]
          rfl
        · rw [hbook'', hat, hbook', Function.update_idem]
        · rw [hsent, hat]
          rfl

/-- No reported parent that waits has an exit, and none that fails fast a retention policy. -/
def Tables.Unpruned (t : Tables V) (reports : List (FlowChildReport V)) : Prop :=
  ∀ report ∈ reports, ∀ row, t.jobs.get? report.flowId = some row →
    (row.state = .waitingChildren → row.exit = none) ∧
      ∀ flow, row.flow = some flow → flow.failFast = true → row.keep = none

/-- The loop after some of the flows. -/
structure Settles (t : Tables V) (reports : List (FlowChildReport V)) (r : Recording V)
    (done : List JobId) (tx : ReportTx V) : Prop where
  decided : Books.Decided (fun flowId => withParent (r.1 flowId) (t.book flowId).parent) reports r
    t.sent done tx.results tx.tables.book tx.tables.sent
  held : ∀ id, tx.tables.held id = t.held id

/-- The transaction does to the books what the reports say. -/
theorem recordChildResults_books (accepts : V → Bool) {t : Tables V} (seq : ℕ)
    {reports : List (FlowChildReport V)}
    (hstorable : ∀ report ∈ reports, storableReport accepts report = true)
    (hunpruned : t.Unpruned reports) (now : Millis) :
    ∃ results t', recordChildResults accepts t seq reports now = .ok (results, t') ∧
      results = t.book.answer reports ∧ t'.book = t.book.after reports ∧
      t'.sent.Perm (t.sent ++ t.book.sent reports) := by
  obtain ⟨⟨applied, moved⟩, hrows, hmoved⟩ := updated_rowsMoved accepts t hstorable
  have hsub : (t.book.recorded reports).2.Sublist reports.zipIdx := Books.accepted_sublist _ _
  have hmanifest := @Books.touched_manifest V t.book reports
  have hparents : ∀ flowId, ((t.book.recorded reports).1 flowId).parent =
      (t.book flowId).parent.map fun p =>
        (ofFlow (t.book.recorded reports).2 flowId).foldl (fun p e => p.counting e.1.outcome) p := by
    intro flowId
    rw [Books.recorded, Books.recordAll_books, FlowBook.applyAll_parent]
  generalize hr : t.book.recorded reports = r at *
  obtain rfl : applied = r.2.map Prod.snd := hmoved.applied
  have hbook : moved.book = fun flowId => withParent (r.1 flowId) (t.book flowId).parent :=
    hmoved.book
  have htallies := tallies_get? hsub
  have hmem : ∀ flowId, flowId ∈ sortedKeys (tallies reports (r.2.map Prod.snd)) ↔
      flowId ∈ Books.touched r := by
    intro flowId
    rw [sortedKeys, List.mem_insertionSort, JsMap.mem_keys, ← Option.isSome_iff_exists, htallies,
      tallyOf, Option.isSome_map, Books.mem_touched, ne_eq, Option.isSome_iff_ne_none, ne_eq,
      List.getLast?_eq_none_iff]
  have hnodup : (sortedKeys (tallies reports (r.2.map Prod.snd))).Nodup :=
    (List.perm_insertionSort _ _).nodup_iff.mpr (JsMap.nodup_keys _)
  have hstart : Settles t reports r [] ⟨Books.flags reports r.2, moved, seq⟩ := by
    refine ⟨?_, fun id => ?_⟩
    · have hsent : moved.sent = t.sent :=
        congrArg (List.map fun entry : OutboxEntry V =>
          (entry.flowName, entry.parentStoreKey, entry.report)) hmoved.outbox
      rw [hbook, hsent]
      exact .start ..
    · have hjobs : moved.jobs = t.jobs := hmoved.jobs
      rw [Tables.held, hjobs, Tables.held]
  have hstep : ∀ done tx, ∀ flowId ∈ sortedKeys (tallies reports (r.2.map Prod.snd)),
      id flowId ∉ done → Settles t reports r done tx →
      ∃ tx', settleTouched reports (tallies reports (r.2.map Prod.snd)) now tx flowId = .ok tx' ∧
        Settles t reports r (done ++ [id flowId]) tx' := by
    intro done tx flowId hkey hnew h
    obtain ⟨e, he⟩ := List.exists_mem_of_ne_nil _ (Books.mem_touched.mp ((hmem flowId).mp hkey))
    obtain ⟨hin, rfl⟩ := mem_ofFlow.mp he
    have hreport := List.fst_mem_of_mem_zipIdx (hsub.subset hin)
    have hat : tx.tables.book e.1.flowId =
        withParent (r.1 e.1.flowId) (t.book e.1.flowId).parent := by
      rw [h.decided.enacted]
      exact if_neg hnew
    have hparent : (tx.tables.jobs.get? e.1.flowId).map
        (parentBook (tx.tables.attempts e.1.flowId)) = (t.book e.1.flowId).parent :=
      congrArg FlowBook.parent hat
    obtain ⟨touch, htouch⟩ : ∃ touch, tallyOf (ofFlow r.2 e.1.flowId) = some touch := by
      rw [← Option.isSome_iff_exists, tallyOf, Option.isSome_map, Option.isSome_iff_ne_none, ne_eq,
        List.getLast?_eq_none_iff]
      exact List.ne_nil_of_mem he
    obtain ⟨tx', hok, hresults, hbook', hsent, hheld⟩ := settleTouched_enacts now
      (fun e he => List.mem_zipIdx_iff_getElem?.mp (hsub.subset (mem_ofFlow.mp he).1)) htouch
      ((htallies _).trans htouch) (b := r.1 e.1.flowId) (hat.trans (by rw [hparent]))
      (by rw [hparent]; exact hparents _) (by
        intro row hrow hstate
        have hheld := h.held e.1.flowId
        rw [hrow, Option.map_some] at hparent
        obtain ⟨row₀, hrow₀, hsame⟩ := Option.map_eq_some_iff.mp hparent.symm
        rw [Tables.held, Tables.held, hrow, hrow₀] at hheld
        obtain ⟨hkeep, hexit⟩ := Prod.mk.inj (Option.some.inj hheld)
        have hstates : row₀.state = row.state := congrArg ParentBook.state hsame
        have hflows : row₀.flow = row.flow := congrArg ParentBook.flow hsame
        obtain ⟨hnone, hslow⟩ := hunpruned e.1 hreport row₀ hrow₀
        refine ⟨hexit.trans (hnone (hstates.trans hstate)), fun flow hflow hfast => ?_⟩
        exact hkeep.trans (hslow flow (hflows.trans hflow) hfast))
    refine ⟨tx', hok, ?_, fun id => (hheld id).trans (h.held id)⟩
    rw [hresults, hbook', hsent]
    exact h.decided.step hsub hnew
  obtain ⟨tx, hok, hlast⟩ := foldlM_decides id _ (by rw [List.map_id]; exact hnodup) hstep hstart
  rw [List.map_id] at hlast
  refine ⟨tx.results, tx.tables, ?_, hlast.decided.all hr.symm hnodup hmem fun flowId hnot => ?_⟩
  · have hflags : (reports.zipIdx.map fun e => (decide (e.2 ∈ r.2.map Prod.snd), false)) =
        Books.flags reports r.2 := rfl
    have hloop : recordChildResults accepts t seq reports now =
        ((sortedKeys (tallies reports (r.2.map Prod.snd))).foldlM
          (settleTouched reports (tallies reports (r.2.map Prod.snd)) now)
          ⟨Books.flags reports r.2, moved, seq⟩).map fun tx => (tx.results, tx.tables) := by
      rw [recordChildResults, hrows, ← hflags]
      rfl
    rw [hloop, hok]
    rfl
  · rw [Books.mem_touched, not_not] at hnot
    refine FlowBook.ext rfl rfl ?_
    rw [hparents, hnot]
    simp [withParent]

end EffectMq.Drizzle
