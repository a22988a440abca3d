import EffectMq.Library.Chunks
import EffectMq.Reports
import EffectMq.RedisJobStore.FlowScripts

/-! # Child reports in the Redis driver

The script does to the books of the keyspace what `Books.after` says. The hash of a row keeps `""` for
an absent reason, so a reason that is there has to be some text.
-/

namespace EffectMq.Redis
set_option autoImplicit false
set_option maxHeartbeats 250000

variable {V : Type}

/-! ## Books -/

def rowBook (row : RowHash V) : RowBook V :=
  ⟨row.status, row.exit, optionalString row.failedReason, row.cascaded⟩

def parentBook (attempts : List (AttemptRecord V)) (job : JobHash V) : ParentBook V :=
  ⟨job.state, job.flow, job.exit, optionalString job.failedReason, job.parent,
    attempts.map (·.outcome)⟩

def Keyspace.pendingRow (ks : Keyspace V) (flowId : JobId) (childKey : String) : Bool :=
  (ks.flowRows.get? (flowId, childKey)).any fun row => decide (row.status = .pending)

/-- A flow of the keyspace; its member index lists the rows. -/
def Keyspace.book (ks : Keyspace V) : Books V := fun flowId =>
  { rows := fun childKey => (ks.flowRows.get? (flowId, childKey)).map rowBook
    pendingRows := (ks.flowIndex flowId).members.countP (ks.pendingRow flowId)
    parent := (ks.jobs.get? flowId).map (parentBook (ks.attempts flowId)) }

/-- Every row is a member of the index of its flow. -/
def Keyspace.RowsIndexed (ks : Keyspace V) : Prop :=
  ∀ flowId childKey row, ks.flowRows.get? (flowId, childKey) = some row →
    childKey ∈ (ks.flowIndex flowId).members

theorem Keyspace.pends_book (ks : Keyspace V) (flowId : JobId) (childKey : String) :
    (ks.book flowId).pends childKey = ks.pendingRow flowId childKey := by
  rw [FlowBook.pends, Keyspace.book, Option.any_map]
  rfl

/-- The reports in the outbox, ids apart. -/
def Keyspace.sent (ks : Keyspace V) : List (String × String × FlowChildReport V) :=
  ks.outbox.map fun entry => (entry.flowName, entry.parentStoreKey, entry.report)

/-! ## The first phase -/

/-- The arguments for one report. -/
def reportItem (report : FlowChildReport V) : ReportItem V :=
  ⟨report.flowId, report.childKey, report.outcome, report.exit, report.failedReason.getD ""⟩

/-- The reason can be told from an absent one. -/
def FlowChildReport.Told (report : FlowChildReport V) : Prop := report.failedReason ≠ some ""

theorem optionalString_getD {text : Option String} (h : text ≠ some "") :
    optionalString (text.getD "") = text := by
  cases text with
  | none => rfl
  | some text =>
    rw [optionalString, Option.getD_some, if_neg]
    exact fun he => h (congrArg some he)

/-- The keyspace after a report that applies. -/
def applyReport (ks : Keyspace V) (row : RowHash V) (report : ReportItem V) : Keyspace V :=
  hset
    { ks with
      flowRows := ks.flowRows.set (report.flowId, report.childKey)
        { row with
          status := report.outcome.toChildStatus, exit := report.exit,
          failedReason := report.failedReason, cascaded := true }
      flowPending := ks.flowPending.rem (flowMember report.flowId report.childKey) }
    report.flowId fun job =>
      { job with flow := job.flow.map fun flow => countOutcome flow report.outcome }

theorem countP_update {keys : List String} (hnodup : keys.Nodup) {key : String} (hmem : key ∈ keys)
    {p q : String → Bool} (hp : p key = true) (hq : q key = false)
    (hsame : ∀ k, k ≠ key → q k = p k) : keys.countP q = keys.countP p - 1 := by
  induction keys with
  | nil => cases hmem
  | cons k keys ih =>
    rw [List.nodup_cons] at hnodup
    rw [List.countP_cons, List.countP_cons]
    rcases List.mem_cons.mp hmem with rfl | htail
    · have hrest : keys.countP q = keys.countP p := by
        apply List.countP_congr
        intro k hk
        rw [hsame k (fun he => hnodup.1 (he ▸ hk))]
      rw [hrest, hp, hq]
      simp
    · have hne : k ≠ key := fun he => hnodup.1 (he ▸ htail)
      have hpos : 0 < keys.countP p := List.countP_pos_iff.mpr ⟨key, htail, hp⟩
      rw [ih hnodup.2 htail, hsame k hne]
      omega

theorem book_applyReport {ks : Keyspace V} (hindexed : ks.RowsIndexed) {report : FlowChildReport V}
    (htold : FlowChildReport.Told report) {row : RowHash V}
    (hrow : ks.flowRows.get? (report.flowId, report.childKey) = some row)
    (hpending : row.status = .pending) :
    (applyReport ks row (reportItem report)).book =
      Function.update ks.book report.flowId ((ks.book report.flowId).apply report) := by
  have hpends : ks.pendingRow report.flowId report.childKey = true := by
    rw [Keyspace.pendingRow, hrow, Option.any_some, hpending]
    rfl
  have hrows : ∀ flowId childKey,
      (applyReport ks row (reportItem report)).flowRows.get? (flowId, childKey) =
        if flowId = report.flowId ∧ childKey = report.childKey then
          some { row with
            status := report.outcome.toChildStatus, exit := report.exit,
            failedReason := report.failedReason.getD "", cascaded := true }
        else ks.flowRows.get? (flowId, childKey) := by
    intro flowId childKey
    simp only [applyReport, hset, reportItem, JsMap.get?_set, Prod.mk.injEq]
  have hjobs : ∀ flowId, (applyReport ks row (reportItem report)).jobs.get? flowId =
      if flowId = report.flowId then
        (ks.jobs.get? flowId).map fun job =>
          { job with flow := job.flow.map fun flow => countOutcome flow report.outcome }
      else ks.jobs.get? flowId := by
    intro flowId
    simp only [applyReport, hset, reportItem, JsMap.get?_modify]
    split
    · rename_i hflow
      rw [hflow]
    · rfl
  funext flowId
  by_cases hflow : flowId = report.flowId
  · subst hflow
    rw [Function.update_self]
    apply FlowBook.ext
    · funext childKey
      simp only [Keyspace.book, hrows, FlowBook.apply, true_and]
      by_cases hkey : childKey = report.childKey
      · subst hkey
        rw [if_pos rfl, Function.update_self, Option.map_some, rowBook,
          optionalString_getD htold]
        rfl
      · rw [if_neg hkey, Function.update_of_ne hkey]
    · refine countP_update (ks.flowIndex report.flowId).nodup_members
        (hindexed report.flowId report.childKey row hrow) hpends ?_ ?_
      · rw [Keyspace.pendingRow, hrows, if_pos ⟨rfl, rfl⟩, Option.any_some]
        exact decide_eq_false (toChildStatus_ne_pending _)
      · intro k hk
        rw [Keyspace.pendingRow, hrows, if_neg fun h => hk h.2, Keyspace.pendingRow]
    · simp only [Keyspace.book, hjobs, if_true, FlowBook.apply, Option.map_map]
      rfl
  · rw [Function.update_of_ne hflow]
    apply FlowBook.ext
    · funext childKey
      simp only [Keyspace.book, hrows, if_neg fun h : flowId = report.flowId ∧ _ => hflow h.1]
    · apply List.countP_congr
      intro k _
      rw [Keyspace.pendingRow, hrows, if_neg fun h => hflow h.1, Keyspace.pendingRow]
    · simp only [Keyspace.book, hjobs, if_neg hflow]
      rfl

def Touch.pair (touch : Touch) : ℕ × Option (ℕ × String) := (touch.last, touch.firstFailed)

/-- What the script keeps of a failed report. -/
def failedAt (e : Placed V) : ℕ × String := (e.2, e.1.childKey)

theorem touchReport_get? {touched : JsMap JobId Touch} {accepted : List (Placed V)}
    (h : ∀ flowId, (touched.get? flowId).map Touch.pair = noted failedAt (ofFlow accepted flowId))
    (e : Placed V) (flowId : JobId) :
    ((touchReport touched (reportItem e.1) e.2).get? flowId).map Touch.pair =
      noted failedAt (ofFlow (accepted ++ [e]) flowId) := by
  have hset : (touchReport touched (reportItem e.1) e.2).get? flowId =
      if flowId = e.1.flowId then
        let touch := (touched.get? e.1.flowId).getD ⟨e.2, none⟩
        some ⟨e.2, if e.1.outcome = .failed ∧ touch.firstFailed = none then some (failedAt e)
          else touch.firstFailed⟩
      else touched.get? flowId := by
    rw [touchReport, JsMap.get?_set]
    rfl
  rw [hset, ofFlow_append, ofFlow_singleton]
  by_cases hflow : flowId = e.1.flowId
  · subst hflow
    rw [if_pos rfl, if_pos rfl, noted_snoc, ← h]
    cases touched.get? e.1.flowId with
    | none => by_cases hfailed : e.1.outcome = .failed <;> simp [Touch.pair, hfailed, failedAt]
    | some touch =>
      cases hfirst : touch.firstFailed <;>
        by_cases hfailed : e.1.outcome = .failed <;> simp [Touch.pair, hfirst, hfailed, failedAt]
  · rw [if_neg hflow, if_neg (Ne.symm hflow), List.append_nil, h]

def answerOf (replies : List RecordReply) : List (Bool × Bool) :=
  replies.map fun r => (r.applied, r.parentSettled)

theorem answerOf_set (replies : List RecordReply) (index : ℕ) (r : RecordReply) :
    answerOf (replies.set index r) = (answerOf replies).set index (r.applied, r.parentSettled) :=
  List.map_set ..

/-- The first phase after some of the reports. -/
structure Follows (ks : Keyspace V) (reports : List (FlowChildReport V)) (acc : RecordState V)
    (r : Recording V) : Prop where
  indexed : acc.ks.RowsIndexed
  book : acc.ks.book = r.1
  touched : ∀ flowId,
    (acc.touched.get? flowId).map Touch.pair = noted failedAt (ofFlow r.2 flowId)
  replies : answerOf acc.replies = Books.flags reports r.2
  outbox : acc.ks.outbox = ks.outbox
  keep : ∀ flowId, (acc.ks.jobs.get? flowId).map (·.keep) = (ks.jobs.get? flowId).map (·.keep)

theorem Follows.start {ks : Keyspace V} (hindexed : ks.RowsIndexed)
    (reports : List (FlowChildReport V)) :
    Follows ks reports ⟨ks, reports.map fun _ => ⟨false, false⟩, ∅⟩ (ks.book, []) where
  indexed := hindexed
  book := rfl
  touched _ := rfl
  replies := by
    rw [Books.flags_nil, answerOf, List.map_map]
    rfl
  outbox := rfl
  keep _ := rfl

theorem Follows.step {ks : Keyspace V} {reports : List (FlowChildReport V)} {acc : RecordState V}
    {r : Recording V} (h : Follows ks reports acc r) (e : Placed V)
    (htold : FlowChildReport.Told e.1) :
    Follows ks reports (recordReport acc (reportItem e.1, e.2)) (Books.step r e) := by
  have hpends := acc.ks.pends_book e.1.flowId e.1.childKey
  rw [h.book, Keyspace.pendingRow] at hpends
  rw [recordReport]
  simp only [reportItem]
  cases hrow : acc.ks.flowRows.get? (e.1.flowId, e.1.childKey) with
  | none =>
    rw [hrow, Option.any_none] at hpends
    rw [Books.step_of_not r e hpends]
    exact h
  | some row =>
    rw [hrow, Option.any_some] at hpends
    by_cases hpending : row.status = .pending
    · rw [Books.step_of_pends r e (by rw [hpends, hpending]; rfl)]
      simp only
      rw [if_neg (not_not_intro hpending)]
      refine
        { indexed := ?_
          book := (book_applyReport h.indexed htold hrow hpending).trans (by rw [h.book])
          touched := touchReport_get? h.touched e
          replies := by rw [answerOf_set, h.replies, Books.flags_snoc]
          outbox := h.outbox
          keep := fun flowId => ?_ }
      · intro flowId childKey row' hrow'
        simp only [hset, JsMap.get?_set] at hrow'
        split at hrow'
        · rename_i hkey
          obtain ⟨rfl, rfl⟩ := Prod.mk.inj hkey
          exact h.indexed _ _ row hrow
        · exact h.indexed _ _ row' hrow'
      · rw [← h.keep]
        simp only [hset, JsMap.get?_modify]
        split
        · rename_i hflow
          rw [hflow, Option.map_map]
          rfl
        · rfl
    · rw [Books.step_of_not r e (by rw [hpends, decide_eq_false hpending])]
      simp only
      rw [if_pos hpending]
      exact h

/-- The state between the two phases. -/
def recorded (ks : Keyspace V) (reports : List (FlowChildReport V)) : RecordState V :=
  (reports.map reportItem).zipIdx.foldl recordReport
    ⟨ks, (reports.map reportItem).map fun _ => ⟨false, false⟩, ∅⟩

theorem recorded_follows {ks : Keyspace V} (hindexed : ks.RowsIndexed)
    {reports : List (FlowChildReport V)} (htold : ∀ report ∈ reports, FlowChildReport.Told report) :
    Follows ks reports (recorded ks reports) (ks.book.recorded reports) := by
  have hfold : ∀ (es : List (Placed V)) (acc : RecordState V) (r : Recording V),
      (∀ e ∈ es, FlowChildReport.Told e.1) → Follows ks reports acc r →
      Follows ks reports (es.foldl (fun acc e => recordReport acc (reportItem e.1, e.2)) acc)
        (es.foldl Books.step r) := by
    intro es
    induction es with
    | nil => exact fun _ _ _ h => h
    | cons e es ih =>
      exact fun acc r htold h => ih _ _ (fun e he => htold e (List.mem_cons_of_mem _ he))
        (h.step e (htold e List.mem_cons_self))
  rw [recorded, List.zipIdx_map, List.foldl_map, List.map_map]
  exact hfold reports.zipIdx _ _
    (fun e he => htold e.1 (List.fst_mem_of_mem_zipIdx he)) (.start hindexed reports)

/-! ## The second phase -/

/-- A remaining pending row. -/
def markRow (row : RowHash V) : RowHash V :=
  if row.status = .pending then { row with status := .cancelled, cascaded := false } else row

theorem rowBook_markRow (row : RowHash V) : rowBook (markRow row) = (rowBook row).marked := by
  by_cases hpending : row.status = .pending <;>
    simp [markRow, rowBook, RowBook.marked, hpending]

theorem markRow_pending (row : RowHash V) : (markRow row).status ≠ .pending := by
  by_cases hpending : row.status = .pending <;> simp [markRow, hpending]

/-- Everything of a keyspace that a book or the outbox shows, its rows apart. -/
def Keyspace.SameBut (ks ks' : Keyspace V) : Prop :=
  ks'.jobs = ks.jobs ∧ ks'.attempts = ks.attempts ∧ ks'.flowIndex = ks.flowIndex ∧
    ks'.outbox = ks.outbox

theorem markRowCancelled_of_not (flowId : JobId) {ks : Keyspace V} (n : ℕ) {key : String}
    (h : ks.pendingRow flowId key = false) : markRowCancelled flowId (ks, n) key = (ks, n) := by
  unfold markRowCancelled Keyspace.pendingRow at *
  cases hrow : ks.flowRows.get? (flowId, key) with
  | none => simp only [hrow]
  | some row =>
    rw [hrow, Option.any_some, decide_eq_false_iff_not] at h
    simp only [hrow]
    rw [if_neg h]

theorem markRowCancelled_spec (flowId : JobId) (ks : Keyspace V) (n : ℕ) (key : String) :
    (markRowCancelled flowId (ks, n) key).2 = n + (if ks.pendingRow flowId key then 1 else 0) ∧
    (∀ member, (markRowCancelled flowId (ks, n) key).1.flowRows.get? member =
      if member = (flowId, key) then (ks.flowRows.get? member).map markRow
      else ks.flowRows.get? member) ∧
    ks.SameBut (markRowCancelled flowId (ks, n) key).1 := by
  cases hpends : ks.pendingRow flowId key with
  | false =>
    rw [markRowCancelled_of_not flowId n hpends]
    refine ⟨rfl, fun member => ?_, rfl, rfl, rfl, rfl⟩
    split
    · rename_i hmember
      rw [hmember]
      rw [Keyspace.pendingRow] at hpends
      cases hrow : ks.flowRows.get? (flowId, key) with
      | none => rfl
      | some row =>
        rw [hrow, Option.any_some, decide_eq_false_iff_not] at hpends
        rw [Option.map_some, markRow, if_neg hpends]
    · rfl
  | true =>
    rw [Keyspace.pendingRow] at hpends
    obtain ⟨row, hrow, hdecide⟩ := (Option.any_eq_true _ _).mp hpends
    have hpending : row.status = .pending := of_decide_eq_true hdecide
    have heq : markRowCancelled flowId (ks, n) key =
        ({ ks with
            flowRows := ks.flowRows.set (flowId, key)
              { row with status := .cancelled, cascaded := false }
            flowPending := ks.flowPending.rem (flowMember flowId key)
            flowCascade := ks.flowCascade.add (flowMember flowId key) 0 }, n + 1) := by
      unfold markRowCancelled
      simp only [hrow]
      exact if_pos hpending
    rw [heq]
    refine ⟨rfl, fun member => ?_, rfl, rfl, rfl, rfl⟩
    rw [JsMap.get?_set]
    split
    · rename_i hmember
      rw [hmember, hrow, Option.map_some, markRow, if_pos hpending]
    · rfl

theorem foldl_markRowCancelled (flowId : JobId) {keys : List String} (hnodup : keys.Nodup)
    (ks : Keyspace V) (n : ℕ) :
    (keys.foldl (markRowCancelled flowId) (ks, n)).2 = n + keys.countP (ks.pendingRow flowId) ∧
    (∀ member, (keys.foldl (markRowCancelled flowId) (ks, n)).1.flowRows.get? member =
      if member.1 = flowId ∧ member.2 ∈ keys then (ks.flowRows.get? member).map markRow
      else ks.flowRows.get? member) ∧
    ks.SameBut (keys.foldl (markRowCancelled flowId) (ks, n)).1 := by
  induction keys generalizing ks n with
  | nil => exact ⟨rfl, fun _ => by simp, rfl, rfl, rfl, rfl⟩
  | cons key keys ih =>
    rw [List.nodup_cons] at hnodup
    obtain ⟨hcount, hrows, hjobs, hattempts, hindex, houtbox⟩ := markRowCancelled_spec flowId ks n key
    rw [List.foldl_cons]
    generalize hstep : markRowCancelled flowId (ks, n) key = step at *
    obtain ⟨ks', n'⟩ := step
    obtain ⟨hcount', hrows', hjobs', hattempts', hindex', houtbox'⟩ := ih hnodup.2 ks' n'
    have hne : ∀ k ∈ keys, (flowId, k) ≠ (flowId, key) := fun k hk he =>
      hnodup.1 ((Prod.mk.inj he).2 ▸ hk)
    refine ⟨?_, fun member => ?_, hjobs'.trans hjobs, hattempts'.trans hattempts,
      hindex'.trans hindex, houtbox'.trans houtbox⟩
    · have hsame : keys.countP (ks'.pendingRow flowId) = keys.countP (ks.pendingRow flowId) := by
        apply List.countP_congr
        intro k hk
        have hother : ks'.flowRows.get? (flowId, k) = _ := hrows (flowId, k)
        rw [Keyspace.pendingRow, hother, if_neg (hne k hk), Keyspace.pendingRow]
      have hn : n' = n + if ks.pendingRow flowId key then 1 else 0 := hcount
      rw [hcount', hsame, hn, List.countP_cons]
      omega
    · have hfirst : ks'.flowRows.get? member = _ := hrows member
      rw [hrows', hfirst]
      obtain ⟨f, k⟩ := member
      by_cases hf : f = flowId
      · subst hf
        by_cases hk : k = key
        · subst hk
          simp [hnodup.1]
        · simp [hk]
      · simp [hf]

theorem settleMarkRows_spec (ks : Keyspace V) (hindexed : ks.RowsIndexed) (flowId : JobId) :
    (∀ member, (settleMarkRows ks flowId).flowRows.get? member =
      if member.1 = flowId then (ks.flowRows.get? member).map markRow
      else ks.flowRows.get? member) ∧
    (settleMarkRows ks flowId).jobs = ks.jobs.modify flowId (fun job =>
      { job with flow := job.flow.map (·.settled (ks.book flowId).pendingRows) }) ∧
    (settleMarkRows ks flowId).attempts = ks.attempts ∧
    (settleMarkRows ks flowId).flowIndex = ks.flowIndex ∧
    (settleMarkRows ks flowId).outbox = ks.outbox := by
  obtain ⟨hcount, hrows, hjobs, hattempts, hindex, houtbox⟩ :=
    foldl_markRowCancelled flowId (ks.flowIndex flowId).nodup_members ks 0
  have hmark : markPendingRowsCancelled ks flowId =
      (ks.flowIndex flowId).members.foldl (markRowCancelled flowId) (ks, 0) := rfl
  unfold settleMarkRows
  rw [hmark]
  generalize (ks.flowIndex flowId).members.foldl (markRowCancelled flowId) (ks, 0) = marked at *
  obtain ⟨ks', n⟩ := marked
  have hn : n = (ks.book flowId).pendingRows := hcount.trans (Nat.zero_add _)
  subst hn
  refine ⟨fun member => ?_, ?_, hattempts, hindex, houtbox⟩
  · refine (hrows member).trans ?_
    by_cases hflow : member.1 = flowId
    · rw [if_pos hflow]
      split
      · rfl
      · rename_i hnot
        cases hrow : ks.flowRows.get? member with
        | none => rfl
        | some row =>
          exact absurd ⟨hflow, hflow ▸ hindexed member.1 member.2 row hrow⟩ hnot
    · rw [if_neg hflow, if_neg fun h => hflow h.1]
  · have hsame : ks'.jobs = ks.jobs := hjobs
    rw [← hsame]
    rfl

theorem releaseDedupe_same (ks : Keyspace V) (name dedupeKey : String) (id : JobId) (now : ℤ) :
    ks.SameBut (releaseDedupe ks name dedupeKey id now) ∧
      (releaseDedupe ks name dedupeKey id now).flowRows = ks.flowRows := by
  unfold releaseDedupe
  split
  · exact ⟨⟨rfl, rfl, rfl, rfl⟩, rfl⟩
  · simp only
    split
    · exact ⟨⟨rfl, rfl, rfl, rfl⟩, rfl⟩
    · split <;> exact ⟨⟨rfl, rfl, rfl, rfl⟩, rfl⟩

theorem appendOutbox_spec {ks : Keyspace V} {id : JobId} {job : JobHash V}
    (hjob : ks.jobs.get? id = some job) (outcome : TerminalState) :
    (appendOutbox ks id outcome).jobs = ks.jobs ∧
    (appendOutbox ks id outcome).attempts = ks.attempts ∧
    (appendOutbox ks id outcome).flowIndex = ks.flowIndex ∧
    (appendOutbox ks id outcome).flowRows = ks.flowRows ∧
    (appendOutbox ks id outcome).sent = ks.sent ++
      (job.parent.map fun parent => (parent.flowName, parent.parentStoreKey,
        { flowId := parent.flowId, childKey := parent.childKey, outcome, exit := job.exit,
          failedReason := optionalString job.failedReason })).toList := by
  unfold appendOutbox Keyspace.sent
  rw [hjob]
  simp only
  cases job.parent with
  | none => simp
  | some parent => simp

/-- A terminal transition of a job without a policy ends well; what it leaves for the books. -/
theorem conclude_spec {ks : Keyspace V} {id : JobId} {job : JobHash V}
    (hjob : ks.jobs.get? id = some job) (hkeep : job.keep = none) (name : String)
    (state : TerminalState) (outcome : AttemptOutcome) (startedAt : Option ℤ) (exit : Option V)
    (now : ℤ) :
    ∃ ks', conclude ks id name state outcome startedAt exit now = .ok ks' ∧
      ks'.jobs = ks.jobs ∧ ks'.flowIndex = ks.flowIndex ∧ ks'.flowRows = ks.flowRows ∧
      (∀ id', (ks'.attempts id').map (·.outcome) =
        (ks.attempts id').map (·.outcome) ++ if id' = id then [outcome] else []) ∧
      ks'.sent = ks.sent ++
        (job.parent.map fun parent => (parent.flowName, parent.parentStoreKey,
          { flowId := parent.flowId, childKey := parent.childKey, outcome := state,
            exit := job.exit, failedReason := optionalString job.failedReason })).toList := by
  have hattempt : (appendAttempt ks id outcome startedAt now exit).jobs.get? id = some job := hjob
  obtain ⟨hjobs, hattempts, hindex, hrows, hsent⟩ := appendOutbox_spec hattempt state
  have hlast : (appendOutbox (appendAttempt ks id outcome startedAt now exit) id state).jobs.get? id =
      some job := by rw [hjobs, hattempt]
  unfold conclude
  simp only [hlast, Option.map_some, Option.getD_some, Option.bind_some, hkeep]
  obtain ⟨⟨hjobs', hattempts', hindex', houtbox'⟩, hrows'⟩ := releaseDedupe_same
    (appendOutbox (appendAttempt ks id outcome startedAt now exit) id state) name job.dedupeKey id now
  refine ⟨_, rfl, hjobs'.trans hjobs, hindex'.trans hindex, hrows'.trans hrows, fun id' => ?_, ?_⟩
  · rw [hattempts', hattempts]
    simp only [appendAttempt, upd_apply]
    split
    · rename_i hid
      rw [List.map_append, hid]
      rfl
    · rw [List.append_nil]
  · rw [Keyspace.sent, houtbox', ← Keyspace.sent, hsent]
    rfl

section Enact

variable {ks : Keyspace V} {flowId : JobId} {job : JobHash V} (hjob : ks.jobs.get? flowId = some job)
  (now : ℤ)

include hjob

theorem book_parent :
    (ks.book flowId).parent = some (parentBook (ks.attempts flowId) job) :=
  congrArg (Option.map (parentBook (ks.attempts flowId))) hjob

theorem book_resumeParent (index : ℕ) :
    (resumeParent ks flowId job now).book =
      Function.update ks.book flowId ((ks.book flowId).enact (.resumes index)) := by
  funext id
  by_cases hid : id = flowId
  · subst hid
    rw [Function.update_self]
    apply FlowBook.ext
    · rfl
    · rfl
    · rw [FlowBook.enact, book_parent hjob]
      simp only [Keyspace.book, resumeParent, countsMove, countsAdd, addWaiting, hset,
        JsMap.get?_modify, if_true, hjob]
      rfl
  · rw [Function.update_of_ne hid]
    apply FlowBook.ext
    · rfl
    · rfl
    · simp only [Keyspace.book, resumeParent, countsMove, countsAdd, addWaiting, hset,
        JsMap.get?_modify, if_neg hid]

variable (hindexed : ks.RowsIndexed) (hkeep : job.keep = none)

include hindexed hkeep

/-- A parent that fails fast: its rows are marked and its report is posted. -/
theorem settleFailFast_spec (index : ℕ) (childKey : String) :
    ∃ ks', settleFailFast ks flowId job childKey now = .ok ks' ∧ ks'.RowsIndexed ∧
      ks'.book = Function.update ks.book flowId ((ks.book flowId).enact (.fails index childKey)) ∧
      ks'.sent = ks.sent ++ ((ks.book flowId).sends (.fails index childKey)).toList ∧
      ∀ id, (ks'.jobs.get? id).map (·.keep) = (ks.jobs.get? id).map (·.keep) := by
  obtain ⟨hrows, hjobs, hattempts, hindex, houtbox⟩ := settleMarkRows_spec ks hindexed flowId
  let failed : JobHash V := { job with
    flow := job.flow.map (·.settled (ks.book flowId).pendingRows), state := .failed,
    finishedAt := some now, cancelRequested := false, failedReason := failFastReason childKey }
  let fails : JobHash V → JobHash V := fun job => { job with
    state := .failed, finishedAt := some now, cancelRequested := false,
    failedReason := failFastReason childKey }
  let mid : Keyspace V := addTerminal (countsMove (hset (settleMarkRows ks flowId) flowId fails)
    job.queue .waitingChildren .failed) job.name .failed now flowId
  have hmid : ∀ id, mid.jobs.get? id = if id = flowId then some failed else ks.jobs.get? id := by
    intro id
    have hsame : mid.jobs = (settleMarkRows ks flowId).jobs.modify flowId fails := rfl
    rw [hsame, JsMap.get?_modify, hjobs, JsMap.get?_modify, JsMap.get?_modify, hjob, if_pos rfl]
    split <;> rfl
  have hfailed : mid.jobs.get? flowId = some failed := by rw [hmid, if_pos rfl]
  obtain ⟨ks', hok, hjobs', hindex', hrows', houtcomes, hsent⟩ :=
    conclude_spec hfailed hkeep job.name .failed .failed job.processedAt none now
  have hrow : ∀ member, ks'.flowRows.get? member =
      if member.1 = flowId then (ks.flowRows.get? member).map markRow
      else ks.flowRows.get? member := fun member => by
    rw [hrows']
    exact hrows member
  have hmembers : ks'.flowIndex = ks.flowIndex := hindex'.trans hindex
  have hget : ∀ id, ks'.jobs.get? id = if id = flowId then some failed else ks.jobs.get? id :=
    fun id => by rw [hjobs', hmid]
  have hledger : ∀ id, (ks'.attempts id).map (·.outcome) =
      (ks.attempts id).map (·.outcome) ++ if id = flowId then [.failed] else [] := fun id => by
    rw [houtcomes]
    exact congrArg (fun f : JobId → List (AttemptRecord V) => (f id).map (·.outcome) ++ _) hattempts
  refine ⟨ks', hok, ?_, ?_, ?_, ?_⟩
  · intro f k row hget
    rw [hmembers]
    rw [hrow] at hget
    split at hget
    · obtain ⟨row₀, hrow₀, -⟩ := Option.map_eq_some_iff.mp hget
      exact hindexed f k row₀ hrow₀
    · exact hindexed f k row hget
  · funext id
    by_cases hid : id = flowId
    · subst hid
      rw [Function.update_self]
      apply FlowBook.ext
      · funext k
        simp only [Keyspace.book, hrow, if_true, FlowBook.enact, Option.map_map]
        exact congrArg (Option.map · _) (funext rowBook_markRow)
      · simp only [Keyspace.book, FlowBook.enact]
        rw [List.countP_eq_zero]
        intro k _
        rw [Keyspace.pendingRow, hrow, if_pos rfl, Option.any_map]
        cases ks.flowRows.get? (id, k) with
        | none => simp
        | some row => simp [markRow_pending]
      · rw [FlowBook.enact, book_parent hjob]
        simp only [Keyspace.book, hget, if_true, Option.map_some, parentBook, hledger]
        rfl
    · rw [Function.update_of_ne hid]
      apply FlowBook.ext
      · funext k
        simp only [Keyspace.book, hrow, if_neg hid]
      · simp only [Keyspace.book, hmembers]
        apply List.countP_congr
        intro k _
        rw [Keyspace.pendingRow, hrow, if_neg hid, Keyspace.pendingRow]
      · have hsame : parentBook (ks'.attempts id) = parentBook (ks.attempts id) := by
          funext other
          rw [parentBook, hledger, if_neg hid, List.append_nil, parentBook]
        simp only [Keyspace.book, hget, if_neg hid, hsame]
  · have hbefore : mid.sent = ks.sent :=
      congrArg (List.map fun entry : OutboxEntry V =>
        (entry.flowName, entry.parentStoreKey, entry.report)) houtbox
    rw [hsent, hbefore, FlowBook.sends, book_parent hjob]
    rfl
  · intro id
    rw [hget]
    split
    · rename_i hid
      rw [hid, hjob]
      rfl
    · rfl

end Enact

def resultAt (replies : List RecordReply) (v : Verdict) : List RecordReply :=
  match v.index with
  | none => replies
  | some index => replies.set index ⟨true, true⟩

theorem answerOf_resultAt (replies : List RecordReply) (v : Verdict) :
    answerOf (resultAt replies v) = Books.answerAt (answerOf replies) v := by
  unfold resultAt Books.answerAt
  cases v.index with
  | none => rfl
  | some index => exact answerOf_set ..

/-- One flow of the second phase, by its verdict. -/
theorem settleTouched_eq (now : ℤ) (acc : List RecordReply × Keyspace V) (flowId : JobId)
    {accepted : List (Placed V)} {touch : Touch} (htouch : noted failedAt accepted = some touch.pair) :
    settleTouched now acc (flowId, touch) =
      match acc.2.jobs.get? flowId with
      | none => .ok acc
      | some job =>
        let v := (parentBook (acc.2.attempts flowId) job).verdict accepted
        match v with
        | .stays => .ok acc
        | .resumes _ => .ok (resultAt acc.1 v, resumeParent acc.2 flowId job now)
        | .fails _ childKey =>
          (settleFailFast acc.2 flowId job childKey now).map fun ks => (resultAt acc.1 v, ks) := by
  obtain ⟨last, hlast, hpair⟩ := Option.map_eq_some_iff.mp htouch
  obtain rfl : touch = ⟨last.2, (firstFailed accepted).map failedAt⟩ :=
    congrArg (fun t : ℕ × Option (ℕ × String) => (⟨t.1, t.2⟩ : Touch)) hpair.symm
  obtain ⟨replies, ks⟩ := acc
  unfold settleTouched
  simp only
  cases hjob : ks.jobs.get? flowId with
  | none => rfl
  | some job =>
    simp only
    cases hflow : job.flow with
    | none => simp [ParentBook.verdict, parentBook, hflow]
    | some flow =>
      simp only
      by_cases hstate : job.state = .waitingChildren
      · rw [if_neg (not_not_intro hstate)]
        simp only [ParentBook.verdict, parentBook, hflow, hlast, hstate]
        cases hfast : flow.failFast with
        | true =>
          cases hfail : firstFailed accepted with
          | some e => simp [failedAt, resultAt, Verdict.index]
          | none => by_cases hzero : flow.pending = 0 <;> simp [hzero, resultAt, Verdict.index]
        | false => by_cases hzero : flow.pending = 0 <;> simp [hzero, resultAt, Verdict.index]
      · simp [ParentBook.verdict, parentBook, hflow, hlast, hstate]

/-- The second phase after some of the flows. -/
structure Decides (ks : Keyspace V) (reports : List (FlowChildReport V)) (r : Recording V)
    (done : List JobId) (acc : List RecordReply × Keyspace V) : Prop where
  indexed : acc.2.RowsIndexed
  decided : Books.Decided r.1 reports r ks.sent done (answerOf acc.1) acc.2.book acc.2.sent
  keep : ∀ flowId, (acc.2.jobs.get? flowId).map (·.keep) = (ks.jobs.get? flowId).map (·.keep)

/-- What one flow of the second phase does, by the verdict on its book. -/
theorem settleTouched_enacts (now : ℤ) {acc : List RecordReply × Keyspace V}
    (hindexed : acc.2.RowsIndexed) (flowId : JobId) {accepted : List (Placed V)} {touch : Touch}
    (htouch : noted failedAt accepted = some touch.pair)
    (hkeep : ∀ job flow, acc.2.jobs.get? flowId = some job → job.flow = some flow →
      flow.failFast = true → job.keep = none) :
    ∃ ks', settleTouched now acc (flowId, touch) =
        .ok (resultAt acc.1 ((acc.2.book flowId).verdict accepted), ks') ∧ ks'.RowsIndexed ∧
      ks'.book = Function.update acc.2.book flowId
        ((acc.2.book flowId).enact ((acc.2.book flowId).verdict accepted)) ∧
      ks'.sent = acc.2.sent ++
        ((acc.2.book flowId).sends ((acc.2.book flowId).verdict accepted)).toList ∧
      ∀ id, (ks'.jobs.get? id).map (·.keep) = (acc.2.jobs.get? id).map (·.keep) := by
  rw [settleTouched_eq now acc flowId htouch, FlowBook.verdict]
  have hsame : acc.2.book = Function.update acc.2.book flowId ((acc.2.book flowId).enact .stays) ∧
      acc.2.sent = acc.2.sent ++ ((acc.2.book flowId).sends .stays).toList :=
    ⟨(Function.update_eq_self flowId _).symm, (List.append_nil _).symm⟩
  cases hjob : acc.2.jobs.get? flowId with
  | none =>
    have hnone : (acc.2.book flowId).parent = none :=
      congrArg (Option.map (parentBook (acc.2.attempts flowId))) hjob
    rw [hnone]
    exact ⟨acc.2, rfl, hindexed, hsame.1, hsame.2, fun _ => rfl⟩
  | some job =>
    rw [book_parent hjob, Option.map_some, Option.getD_some]
    dsimp only
    cases hverdict : (parentBook (acc.2.attempts flowId) job).verdict accepted with
    | stays => exact ⟨acc.2, rfl, hindexed, hsame.1, hsame.2, fun _ => rfl⟩
    | resumes index =>
      refine ⟨_, rfl, hindexed, book_resumeParent hjob now index, (List.append_nil _).symm,
        fun id => ?_⟩
      simp only [resumeParent, countsMove, countsAdd, addWaiting, hset, JsMap.get?_modify]
      split
      · rename_i hid
        rw [hid, Option.map_map]
        rfl
      · rfl
    | fails index childKey =>
      obtain ⟨-, flow, hflow, hfast⟩ := ParentBook.verdict_fails hverdict
      obtain ⟨ks', hok, hrest⟩ :=
        settleFailFast_spec hjob now hindexed (hkeep job flow hjob hflow hfast) index childKey
      exact ⟨ks', congrArg (Except.map _) hok, hrest⟩

/-- No reported parent that fails fast has a retention policy. -/
def Keyspace.Unpruned (ks : Keyspace V) (reports : List (FlowChildReport V)) : Prop :=
  ∀ report ∈ reports, ∀ job, ks.jobs.get? report.flowId = some job →
    ∀ flow, job.flow = some flow → flow.failFast = true → job.keep = none

theorem Decides.step {ks : Keyspace V} {reports : List (FlowChildReport V)} {r : Recording V}
    {done : List JobId} {acc : List RecordReply × Keyspace V} (h : Decides ks reports r done acc)
    (now : ℤ) (hsub : r.2.Sublist reports.zipIdx) {flowId : JobId} (hnew : flowId ∉ done)
    {touch : Touch} (htouch : noted failedAt (ofFlow r.2 flowId) = some touch.pair)
    (hkeep : ∀ p flow, (r.1 flowId).parent = some p → p.flow = some flow → flow.failFast = true →
      ∀ job, ks.jobs.get? flowId = some job → job.keep = none) :
    ∃ acc', settleTouched now acc (flowId, touch) = .ok acc' ∧
      Decides ks reports r (done ++ [flowId]) acc' := by
  have hbook : acc.2.book flowId = r.1 flowId := by
    rw [h.decided.enacted]
    exact if_neg hnew
  obtain ⟨ks', hok, hindexed, hbook', hsent, hkept⟩ :=
    settleTouched_enacts now h.indexed flowId htouch (by
      intro job flow hjob hflow hfast
      have hp : (r.1 flowId).parent = some (parentBook (acc.2.attempts flowId) job) := by
        rw [← hbook]
        exact book_parent hjob
      have hsame := h.keep flowId
      rw [hjob, Option.map_some] at hsame
      obtain ⟨job₀, hjob₀, hkeep₀⟩ := Option.map_eq_some_iff.mp hsame.symm
      rw [← hkeep₀]
      exact hkeep _ flow hp hflow hfast job₀ hjob₀)
  rw [hbook] at hok hbook' hsent
  refine ⟨_, hok, hindexed, ?_, fun id => (hkept id).trans (h.keep id)⟩
  rw [answerOf_resultAt, hbook', hsent]
  exact h.decided.step hsub hnew

/-- The script does to the books what the reports say. -/
theorem recordChildResults_books {ks : Keyspace V} (hindexed : ks.RowsIndexed) (now : ℤ)
    {reports : List (FlowChildReport V)} (htold : ∀ report ∈ reports, FlowChildReport.Told report)
    (hunpruned : ks.Unpruned reports) :
    ∃ replies ks', recordChildResults ks (reports.map reportItem) now = .ok (replies, ks') ∧
      ks'.RowsIndexed ∧ answerOf replies = ks.book.answer reports ∧
      ks'.book = ks.book.after reports ∧ ks'.sent.Perm (ks.sent ++ ks.book.sent reports) := by
  have hfirst := recorded_follows hindexed htold
  have hsub : (ks.book.recorded reports).2.Sublist reports.zipIdx := Books.accepted_sublist _ _
  generalize hr : ks.book.recorded reports = r at hfirst hsub
  have hkeep : ∀ flowId, flowId ∈ Books.touched r →
      ∀ p flow, (r.1 flowId).parent = some p → p.flow = some flow → flow.failFast = true →
      ∀ job, ks.jobs.get? flowId = some job → job.keep = none := by
    intro flowId htouched p flow hp hflow hfast job hjob
    subst hr
    obtain ⟨report, hreport, rfl, p₀, flow₀, hp₀, hflow₀, hsame⟩ :=
      Books.touched_manifest htouched hp hflow
    obtain rfl := Option.some.inj ((book_parent hjob).symm.trans hp₀)
    exact hunpruned report hreport job hjob flow₀ hflow₀ (hsame.trans hfast)
  have hmem : ∀ flowId, flowId ∈ (recorded ks reports).touched.keys ↔ flowId ∈ Books.touched r := by
    intro flowId
    rw [JsMap.mem_keys, ← Option.isSome_iff_exists, Books.mem_touched, ne_eq,
      ← noted_eq_none failedAt, ← hfirst.touched, ← ne_eq, ← Option.isSome_iff_ne_none,
      Option.isSome_map]
  have hstart : Decides ks reports r [] ((recorded ks reports).replies, (recorded ks reports).ks) := by
    refine ⟨hfirst.indexed, ?_, hfirst.keep⟩
    have hsent : (recorded ks reports).ks.sent = ks.sent := by
      rw [Keyspace.sent, hfirst.outbox]
      rfl
    rw [hfirst.replies, hfirst.book, hsent]
    exact .start ..
  obtain ⟨acc', hok, hlast⟩ := foldlM_decides (f := settleTouched now)
    Prod.fst (recorded ks reports).touched.entries (recorded ks reports).touched.nodup
    (fun done acc entry hentry hnew h => by
      have htouch := hfirst.touched entry.1
      rw [JsMap.get?_eq_some.mpr hentry] at htouch
      exact h.step now hsub hnew htouch.symm
        (hkeep entry.1 ((hmem entry.1).mp (List.mem_map_of_mem hentry)))) hstart
  exact ⟨acc'.1, acc'.2, hok, hlast.indexed,
    hlast.decided.all hr.symm (recorded ks reports).touched.nodup hmem fun _ _ => rfl⟩

/-- `recordChildResults` of `RedisJobStore.ts`: one script call for each 500 reports. -/
def recordReports (ks : Keyspace V) (reports : List (FlowChildReport V)) (now : ℤ) :
    Except (Keyspace V) (List RecordReply × Keyspace V) :=
  (reports.chunks 500).foldlM (fun (all, ks) chunk =>
    (recordChildResults ks (chunk.map reportItem) now).map fun (replies, ks) => (all ++ replies, ks))
    ([], ks)

/-- A batch of one chunk is one script call. -/
theorem recordReports_of_length_le (ks : Keyspace V) {reports : List (FlowChildReport V)}
    (h : reports.length ≤ 500) (now : ℤ) :
    recordReports ks reports now = recordChildResults ks (reports.map reportItem) now := by
  rw [recordReports]
  by_cases hne : reports = []
  · subst hne
    rfl
  · rw [List.chunks_of_length_le hne h, List.foldlM_cons]
    cases hcall : recordChildResults ks (reports.map reportItem) now with
    | error ks' =>
      dsimp only
      rw [hcall]
      rfl
    | ok reply =>
      dsimp only
      rw [hcall]
      rfl

end EffectMq.Redis
