import EffectMq.MemoryJobStore.Store

/-! # The in-memory driver: the service

The operations of the `Service` that `makeStoreUnsafe` returns. Each reads the clock once and then
runs one synchronous block, so an operation is a function of the store, the clock reading `now` and
its arguments. It returns the store after the block also when it fails. `Op` and `exec` collect the
operations that can write, together with the timed history sweep.
-/

namespace EffectMq.Memory
set_option autoImplicit false
set_option maxHeartbeats 250000

variable {V : Type}

/-! ## Enqueue -/

/-- Where a store-assigned id comes from: the `j-<n>` counter, or the ids the configured generator
draws for this request. -/
inductive IdSource
  | counter
  | generator (draws : List JobId)
  deriving DecidableEq

def DedupeEntry.live (entry : DedupeEntry) (now : Millis) : Bool :=
  match entry.expiresAt with
  | none => false
  | some t => decide (now < t)

def setWindow (s : Store V) (key : String) (now : Millis) (ttlMs : Option (WithTop Millis)) : Store V :=
  match ttlMs with
  | none => s
  | some ttl =>
    { s with dedupes := s.dedupes.modify key fun e => { e with expiresAt := some (now + ttl) } }

/-- Latest-wins: the new request's content on the keyed job, id and ledger preserved. -/
def replaceJob (keyed : MemJob V) (request : EnqueueRequest V) (now : Millis) : MemJob V :=
  { keyed with
    payload := request.payload
    metadata := request.metadata
    priority := request.priority
    attemptsMax := request.attemptsMax
    backoff := request.backoff
    keep := request.keep
    timeoutMs := request.timeoutMs
    trace := request.trace
    runAt := now + max 0 request.delayMs }

/-- The dedup decision tree; `none` lets the new job take over the key. -/
def dedupeDecision (s : Store V) (now : Millis) (request : EnqueueRequest V)
    (dedupe : DedupePolicy) : Option (EnqueueResult × Store V) :=
  let mapKey := dedupeMapKey request.name dedupe.key
  match s.dedupes.get? mapKey with
  | none => none
  | some entry =>
    match (s.jobs.get? entry.jobId).filter
        (fun keyed => dedupe.replace && decide (keyed.state = .delayed)) with
    | some keyed =>
      let s := s.putJob (replaceJob keyed request now)
      let s := setWindow s mapKey now dedupe.ttlMs
      some (⟨keyed.id, true⟩, signalWake s (some keyed.queue))
    | none =>
      if entry.live now then
        some (⟨entry.jobId, true⟩,
          if dedupe.extend then setWindow s mapKey now dedupe.ttlMs else s)
      else if entry.expiresAt = none ∧
          (s.jobs.get? entry.jobId).any (fun keyed => !keyed.state.isTerminal) then
        some (⟨entry.jobId, true⟩, s)
      else none

/-- The part of `enqueueOne` before an id is chosen; an answer ends the call. -/
def enqueueDecision (s : Store V) (now : Millis) (request : EnqueueRequest V) :
    Option (EnqueueResult × Store V) :=
  match request.id.filter s.jobs.has with
  | some id => some (⟨id, true⟩, s)
  | none => request.dedupe.bind (dedupeDecision s now request)

/-- `do id = j-{++idCounter} while (jobs.has(id))`, with the number of tries bounded. -/
def nextCounterId (jobs : JsMap JobId (MemJob V)) : ℕ → ℕ → Option (JobId × ℕ)
  | 0, _ => none
  | tries + 1, counter =>
    let id := "j-" ++ Nat.repr (counter + 1)
    if jobs.has id then nextCounterId jobs tries (counter + 1) else some (id, counter + 1)

def assignId (s : Store V) (request : EnqueueRequest V) (ids : IdSource) :
    Option JobId × Store V :=
  match request.id, ids with
  | some id, _ => (some id, s)
  | none, .counter =>
    match nextCounterId s.jobs (s.jobs.size + 1) s.idCounter with
    | some (id, counter) => (some id, { s with idCounter := counter })
    | none => (none, s)
  | none, .generator draws => ((draws.take 5).find? fun id => !s.jobs.has id, s)

/-- The part of `enqueueOne` after an id is chosen. -/
def insertFresh (s : Store V) (now : Millis) (request : EnqueueRequest V) (id : JobId) : Store V :=
  let s := insertJobRecord s id request now
  match request.dedupe with
  | none => s
  | some dedupe =>
    { s with
      dedupes := s.dedupes.set (dedupeMapKey request.name dedupe.key)
        { jobId := id, expiresAt := dedupe.ttlMs.map fun ttl => now + ttl } }

def enqueueOne (s : Store V) (now : Millis) (request : EnqueueRequest V) (ids : IdSource) :
    Except StoreError EnqueueResult × Store V :=
  match enqueueDecision s now request with
  | some (result, s) => (.ok result, s)
  | none =>
    match assignId s request ids with
    | (some id, s) => (.ok ⟨id, false⟩, insertFresh s now request id)
    | (none, s) =>
      (.error (.jobStoreError "enqueue failed: could not generate a unique job id"), s)

/-- An `enqueueOne` whose generator is an effect, when it resumes with a candidate id. The clock was
read, and the dedup tree consulted, before the generator ran. -/
def resumeEnqueue (s : Store V) (now : Millis) (request : EnqueueRequest V) (candidate : JobId) :
    Option EnqueueResult × Store V :=
  if s.jobs.has candidate then (none, s)
  else (some ⟨candidate, false⟩, insertFresh s now request candidate)

/-! ## Claim -/

structure ClaimOptions where
  queue : QueueName
  names : List String
  token : String
  lockDurationMs : Millis
  deriving DecidableEq

inductive ClaimResult (V : Type)
  | claimed (job : JobRecord V)
  | empty (nextRunAt : Option Millis) (wakeToken : ℕ)
  deriving DecidableEq

structure ClaimScan (V : Type) where
  best : Option (MemJob V)
  nextRunAt : Option Millis

def beats (job : MemJob V) (best : Option (MemJob V)) : Bool :=
  match best with
  | none => true
  | some best =>
    decide (best.priority < job.priority ∨ job.priority = best.priority ∧ job.seq < best.seq)

def claimScan (options : ClaimOptions) (scan : ClaimScan V) (job : MemJob V) : ClaimScan V :=
  if job.queue ≠ options.queue ∨ job.name ∉ options.names then scan
  else match job.state with
    | .waiting => if beats job scan.best then { scan with best := some job } else scan
    | .delayed =>
      match scan.nextRunAt with
      | none => { scan with nextRunAt := some job.runAt }
      | some t => if job.runAt < t then { scan with nextRunAt := some job.runAt } else scan
    | _ => scan

def claimJob (job : MemJob V) (options : ClaimOptions) (now : Millis) : MemJob V :=
  { job with
    state := .active
    lockToken := some options.token
    lockExpiresAt := some (now + options.lockDurationMs)
    processedAt := some now }

def claim (s : Store V) (now : Millis) (options : ClaimOptions) : ClaimResult V × Store V :=
  let s := promoteDue s now
  let scan := s.jobs.values.foldl (claimScan options) ⟨none, none⟩
  match scan.best with
  | some best =>
    if options.queue ∈ s.paused then (.empty scan.nextRunAt s.wakeVersion, s)
    else
      let best := claimJob best options now
      (.claimed (snapshot best), s.putJob best)
  | none => (.empty scan.nextRunAt s.wakeVersion, s)

/-! ## Ack -/

def newRow (flowId : JobId) (now : Millis) (child : FlowChildSpec V) : MemFlowChild V where
  flowId := flowId
  childKey := child.childKey
  storeKey := child.storeKey
  spec := child.request
  status := .pending
  exit := none
  failedReason := none
  cascaded := false
  pendingSince := now

def newRows (flowId : JobId) (now : Millis) (children : List (FlowChildSpec V)) : Rows V :=
  children.foldl (fun rows child => rows.set child.childKey (newRow flowId now child)) ∅

/-- A job becomes runnable: at the back of its priority, due now, its queue woken. -/
def makeRunnable (s : Store V) (job : MemJob V) (now : Millis) : Store V :=
  let s := { s with seq := s.seq + 1 }
  signalWake (s.putJob { job with state := .waiting, runAt := now, seq := s.seq }) (some job.queue)

/-- Rows and manifest are created once: a repeated fan-out keeps what is persisted. -/
def openManifest (s : Store V) (now : Millis) (job : MemJob V) (failFast : Bool)
    (children : List (FlowChildSpec V)) : Store V × FlowState :=
  match job.flow with
  | some flow => (s, flow)
  | none =>
    ({ s with flowChildren := s.flowChildren.set job.id (newRows job.id now children) },
      { failFast, pending := children.length, completed := 0, failed := 0, cancelled := 0 })

/-- The `FanOut` branch of `ack`, on a job whose lock is already cleared. -/
def ackFanOut (s : Store V) (now : Millis) (job : MemJob V) (failFast : Bool)
    (children : List (FlowChildSpec V)) : Store V :=
  let job := recordAttempt job .fannedOut now none
  let (s, flow) := openManifest s now job failFast children
  let job := { job with flow := some flow }
  if job.cancelRequested then
    -- A cancel raced the fan-out. The job is still `active`, so the rows are marked here.
    let (core, job) := s.toCore.settleMarkRows job
    markCancelled { s with toCore := core } job now
  else if 0 < flow.pending then s.putJob { job with state := .waitingChildren }
  else makeRunnable s job now

/-- The rest of `ack` after the guards; a fan-out consumes no attempt. -/
def ackOutcome (s : Store V) (now : Millis) (job : MemJob V) (outcome : AckOutcome V) : Store V :=
  let job := clearLock job
  match outcome with
  | .fanOut failFast children => ackFanOut s now job failFast children
  | .complete exit =>
    let job := { job with
      attemptsMade := job.attemptsMade + 1, cancelRequested := false, state := .completed,
      exit := exit, finishedAt := some now }
    s.terminate (recordAttempt job .completed now exit) .completed now
  | .fail exit =>
    let job := { job with
      attemptsMade := job.attemptsMade + 1, cancelRequested := false, state := .failed,
      exit := exit, finishedAt := some now }
    s.terminate (recordAttempt job .failed now exit) .failed now
  | .cancelled =>
    let job := { job with
      attemptsMade := job.attemptsMade + 1, cancelRequested := false, state := .cancelled,
      finishedAt := some now }
    s.terminate (recordAttempt job .cancelled now none) .cancelled now
  | .retry delayMs exit =>
    let job := { job with attemptsMade := job.attemptsMade + 1 }
    if job.cancelRequested then markCancelled s job now
    else
      let job := recordAttempt job .retried now exit
      let s := { s with seq := s.seq + 1 }
      let job := { job with
        runAt := now + max 0 delayMs
        state := if 0 < delayMs then .delayed else .waiting
        seq := s.seq }
      signalWake (s.putJob job) (some job.queue)

/-- A `FanOut` child spec without an explicit id. -/
def AckOutcome.lacksId : AckOutcome V → Bool
  | .fanOut _ children => children.any fun child => child.request.id.isNone
  | _ => false

def ack (s : Store V) (now : Millis) (id : JobId) (token : String) (outcome : AckOutcome V) :
    Except StoreError Unit × Store V :=
  match s.jobs.get? id with
  | none => (.error (.jobNotFound id), s)
  | some job =>
    if job.state ≠ .active ∨ job.lockToken ≠ some token then (.error (.lockLost id), s)
    else if AckOutcome.lacksId outcome then
      (.error (.jobStoreError "FanOut child specs require an explicit request.id"), s)
    else (.ok (), ackOutcome s now job outcome)

/-! ## Locks -/

def release (s : Store V) (now : Millis) (id : JobId) (token : String) :
    Except StoreError Unit × Store V :=
  match s.jobs.get? id with
  | none => (.error (.jobNotFound id), s)
  | some job =>
    if job.state ≠ .active ∨ job.lockToken ≠ some token then (.error (.lockLost id), s)
    else if job.cancelRequested then (.ok (), markCancelled s job now)
    else
      (.ok (), signalWake (s.putJob { clearLock job with state := .waiting }) (some job.queue))

structure Lock where
  id : JobId
  token : String
  deriving DecidableEq

structure ExtendLocksResult where
  lost : List JobId
  cancelRequested : List JobId
  deriving DecidableEq

def extendLock (now durationMs : Millis) (acc : ExtendLocksResult × Store V) (lock : Lock) :
    ExtendLocksResult × Store V :=
  let (result, s) := acc
  match s.jobs.get? lock.id with
  | none => ({ result with lost := result.lost ++ [lock.id] }, s)
  | some job =>
    if job.state ≠ .active ∨ job.lockToken ≠ some lock.token then
      ({ result with lost := result.lost ++ [lock.id] }, s)
    else if job.cancelRequested then
      ({ result with cancelRequested := result.cancelRequested ++ [lock.id] }, s)
    else (result, s.putJob { job with lockExpiresAt := some (now + durationMs) })

def extendLocks (s : Store V) (now : Millis) (locks : List Lock) (durationMs : Millis) :
    ExtendLocksResult × Store V :=
  locks.foldl (extendLock now durationMs) (⟨[], []⟩, s)

structure Recovered where
  id : JobId
  failed : Bool
  deriving DecidableEq

def stalledReason : String := "job stalled more than allowable limit"

/-- One iteration of `recoverStalled`; a job the loop has deleted meanwhile is skipped. -/
def recoverJob (now : Millis) (maxStalledCount : ℤ) (acc : List Recovered × Store V)
    (id : JobId) : List Recovered × Store V :=
  let (recovered, s) := acc
  match s.jobs.get? id with
  | none => acc
  | some job =>
    match job.state, job.lockExpiresAt with
    | .active, some expiresAt =>
      if now < expiresAt then acc
      else if job.cancelRequested then (recovered, markCancelled s job now)
      else
        let job := clearLock job
        let job := { job with stalledCount := job.stalledCount + 1 }
        let job := recordAttempt job .stalled now none
        if maxStalledCount < (job.stalledCount : ℤ) then
          let job := { job with
            state := .failed, finishedAt := some now, failedReason := some stalledReason }
          let s := s.putJob job
          let s := { s with toCore := s.toCore.appendOutbox job .failed }
          (recovered ++ [⟨job.id, true⟩], releaseDedupe s job now)
        else (recovered ++ [⟨job.id, false⟩], s.putJob { job with state := .waiting })
    | _, _ => acc

def recoverStalled (s : Store V) (now : Millis) (maxStalledCount : ℤ) :
    List Recovered × Store V :=
  let (recovered, s) := s.jobs.keys.foldl (recoverJob now maxStalledCount) ([], s)
  (recovered, if recovered.any (fun entry => !entry.failed) then signalWake s none else s)

/-- Returns at once when a watched queue was woken after `wakeToken`, else parks a waiter. -/
def awaitWake (s : Store V) (queues : List QueueName) (wakeToken : ℕ) : Option ℕ × Store V :=
  if queues.any fun queue => decide (wakeToken < lastWakeFor s queue) then (none, s)
  else
    (some s.nextWaiter,
      { s with
        waiters := s.waiters ++ [{ id := s.nextWaiter, queues }]
        nextWaiter := s.nextWaiter + 1 })

/-- The finalizer of an interrupted `awaitWake`. -/
def dropWaiter (s : Store V) (id : ℕ) : Store V :=
  { s with waiters := s.waiters.filter fun w => decide (w.id ≠ id) }

/-! ## Maintenance verbs -/

def retry (s : Store V) (now : Millis) (id : JobId) : Except StoreError Unit × Store V :=
  match s.jobs.get? id with
  | none => (.error (.jobNotFound id), s)
  | some job =>
    if job.state ≠ .failed then (.error (.jobNotRetryable id job.state), s)
    else
      let s := { s with seq := s.seq + 1 }
      let job := { job with
        state := .waiting, attemptsMade := 0, stalledCount := 0, cancelRequested := false,
        exit := none, failedReason := none, finishedAt := none, processedAt := none, runAt := now,
        seq := s.seq }
      (.ok (), signalWake (s.putJob job) (some job.queue))

/-- A vanished or already-terminal keyed job is "nothing pending", not an error. -/
def cancelByDedupe (s : Store V) (now : Millis) (name key : String) : Bool × Store V :=
  match s.dedupes.get? (dedupeMapKey name key) with
  | none => (false, s)
  | some entry =>
    match cancelJob s now entry.jobId with
    | (.ok (), s) => (true, s)
    | (.error _, s) => (false, s)

def promote (s : Store V) (now : Millis) (id : JobId) : Except StoreError Unit × Store V :=
  match s.jobs.get? id with
  | none => (.error (.jobNotFound id), s)
  | some job =>
    if job.state ≠ .delayed then (.error (.jobNotPromotable id job.state), s)
    else
      (.ok (), signalWake (s.putJob { job with state := .waiting, runAt := now }) (some job.queue))

def pause (s : Store V) (queue : QueueName) : Store V :=
  if queue ∈ s.paused then s else { s with paused := s.paused ++ [queue] }

def resume (s : Store V) (queue : QueueName) : Store V :=
  if queue ∈ s.paused then
    signalWake { s with paused := s.paused.filter fun q => decide (q ≠ queue) } (some queue)
  else s

/-- Refuses a job that is active or waiting for its children. -/
def remove (s : Store V) (id : JobId) : Bool × Store V :=
  match s.jobs.get? id with
  | none => (false, s)
  | some job =>
    if job.state = .active ∨ job.state = .waitingChildren then (false, s)
    else (true, { s with toCore := s.toCore.deleteJob id })

/-! ## Schedules -/

/-- An unchanged cadence keeps its next occurrence. -/
def upsertSchedule (s : Store V) (schedule : ScheduleRecord V) : Store V :=
  let stored := match s.schedules.get? schedule.key with
    | none => schedule
    | some existing =>
      if existing.cron = schedule.cron ∧ existing.tz = schedule.tz ∧
          existing.everyMs = schedule.everyMs then
        { schedule with nextRunAt := existing.nextRunAt }
      else schedule
  signalWake { s with schedules := s.schedules.set schedule.key stored } (some schedule.queue)

def removeSchedule (s : Store V) (key : ScheduleKey) : Bool × Store V :=
  (s.schedules.has key, { s with schedules := s.schedules.delete key })

def advanceSchedule (s : Store V) (key : ScheduleKey) (expectedRunAt nextRunAt : Millis) :
    Store V :=
  match s.schedules.get? key with
  | none => s
  | some schedule =>
    if schedule.nextRunAt = expectedRunAt then
      { s with schedules := s.schedules.set key { schedule with nextRunAt } }
    else s

/-- Compare-and-swap on `nextRunAt`, insert and advance in one block. -/
def tickSchedule (s : Store V) (now : Millis) (key : ScheduleKey)
    (expectedRunAt nextRunAt : Millis) (request : EnqueueRequest V) :
    Except StoreError Bool × Store V :=
  match request.id with
  | none => (.error (.jobStoreError "tickSchedule requires an explicit request.id"), s)
  | some id =>
    match s.schedules.get? key with
    | none => (.ok false, s)
    | some schedule =>
      if schedule.nextRunAt ≠ expectedRunAt then (.ok false, s)
      else
        let s := { s with schedules := s.schedules.set key { schedule with nextRunAt } }
        if s.jobs.has id then (.ok false, s) else (.ok true, insertJobRecord s id request now)

/-! ## Child results -/

structure ReportResult where
  applied : Bool
  parentSettled : Bool
  deriving DecidableEq

/-- Which report of a batch would decide a flow's settle. -/
structure Touch where
  lastApplied : ℕ
  firstAppliedFailed : Option ℕ
  deriving DecidableEq

/-- An applied report moves one child from `pending` to its outcome counter. -/
def countOutcome (flow : FlowState) (outcome : TerminalState) : FlowState :=
  { flow with
    pending := flow.pending - 1
    completed := flow.completed + if outcome = .completed then 1 else 0
    failed := flow.failed + if outcome = .failed then 1 else 0
    cancelled := flow.cancelled + if outcome = .cancelled then 1 else 0 }

/-- The outcome came from the child's store, so no cancel is owed. -/
def reportRow (row : MemFlowChild V) (report : FlowChildReport V) : MemFlowChild V :=
  { row with
    status := report.outcome.toChildStatus
    exit := report.exit
    failedReason := report.failedReason
    cascaded := true }

def Core.row? (c : Core V) (flowId : JobId) (childKey : String) : Option (MemFlowChild V) :=
  (c.flowChildren.get? flowId).bind fun rows => rows.get? childKey

/-- The row update of one report and the parent counters that go with it. -/
def Core.applyReport (c : Core V) (row : MemFlowChild V) (report : FlowChildReport V) : Core V :=
  let c := { c with
    flowChildren := c.flowChildren.modify report.flowId fun rows =>
      rows.modify report.childKey fun _ => reportRow row report }
  match c.jobs.get? report.flowId with
  | none => c
  | some parent =>
    match parent.flow with
    | none => c
    | some flow => c.putJob { parent with flow := some (countOutcome flow report.outcome) }

structure RecordState (V : Type) where
  core : Core V
  results : List ReportResult
  touched : JsMap JobId Touch

def touchReport (touched : JsMap JobId Touch) (report : FlowChildReport V) (index : ℕ) :
    JsMap JobId Touch :=
  let touch := (touched.get? report.flowId).getD ⟨index, none⟩
  let firstAppliedFailed :=
    if report.outcome = .failed ∧ touch.firstAppliedFailed = none then some index
    else touch.firstAppliedFailed
  touched.set report.flowId ⟨index, firstAppliedFailed⟩

/-- Phase 1 of `recordChildResults` for one report: it applies only to a row still pending. -/
def recordReport (acc : RecordState V) (entry : FlowChildReport V × ℕ) : RecordState V :=
  let (report, index) := entry
  match acc.core.row? report.flowId report.childKey with
  | none => acc
  | some row =>
    if row.status ≠ .pending then acc
    else
      { core := acc.core.applyReport row report
        results := acc.results.set index ⟨true, false⟩
        touched := touchReport acc.touched report index }

def failFastReason (childKey : String) : String :=
  "effect-mq: flow child \"" ++ childKey ++ "\" failed"

/-- The store-side settle of a fail-fast parent: its remaining rows are marked in the same block. -/
def settleFailFast (s : Store V) (now : Millis) (parent : MemJob V) (childKey : String) :
    Store V :=
  let (core, parent) := s.toCore.settleMarkRows parent
  let s := { s with toCore := core }
  let parent := { parent with
    cancelRequested := false, state := .failed, finishedAt := some now,
    failedReason := some (failFastReason childKey) }
  s.terminate (recordAttempt parent .failed now none) .failed now

/-- Phase 2 of `recordChildResults` for one touched flow: at most one settle, fail-fast first. -/
def settleTouched (now : Millis) (reports : List (FlowChildReport V))
    (acc : List ReportResult × Store V) (entry : JobId × Touch) : List ReportResult × Store V :=
  let (results, s) := acc
  let (flowId, touch) := entry
  match s.jobs.get? flowId with
  | none => acc
  | some parent =>
    match parent.flow with
    | none => acc
    | some flow =>
      if parent.state ≠ .waitingChildren then acc
      else
        match (if flow.failFast then touch.firstAppliedFailed else none).bind
            (fun index => (reports[index]?).map (index, ·)) with
        | some (index, report) =>
          (results.set index ⟨true, true⟩, settleFailFast s now parent report.childKey)
        | none =>
          if flow.pending = 0 then
            (results.set touch.lastApplied ⟨true, true⟩, makeRunnable s parent now)
          else acc

def recordChildResults (s : Store V) (now : Millis) (reports : List (FlowChildReport V)) :
    List ReportResult × Store V :=
  let recorded := reports.zipIdx.foldl recordReport
    { core := s.toCore, results := reports.map fun _ => ⟨false, false⟩, touched := ∅ }
  recorded.touched.entries.foldl (settleTouched now reports)
    (recorded.results, { s with toCore := recorded.core })

/-! ## The outbox and the flow sweep -/

/-- `after` is the sequence number embedded in the named id, `none` when it is unset. -/
def peekOutbox (s : Store V) (limit : ℕ) (after : Option ℕ) : List (OutboxEntry V) :=
  (match after with
    | none => s.outbox
    | some seq => s.outbox.filter fun entry => decide (seq < entry.id)).take limit

def deleteOutbox (s : Store V) (ids : List ℕ) : Store V :=
  { s with outbox := s.outbox.filter fun entry => decide (entry.id ∉ ids) }

structure CascadeChild where
  childKey : String
  storeKey : String
  childJobId : Option JobId
  deriving DecidableEq

structure FlowSweepWork (V : Type) where
  reconcile : List (JobId × List (FlowChildSpec V))
  cascade : List (JobId × List CascadeChild)

structure FlowSweepState (V : Type) where
  flowChildren : JsMap JobId (Rows V)
  reconcileCount : ℕ
  cascadeCount : ℕ
  work : FlowSweepWork V

structure FlowSweepOptions where
  pendingAgeMs : Millis
  limit : ℤ
  deriving DecidableEq

def FlowSweepOptions.pageSize (options : FlowSweepOptions) : ℕ := (max 1 options.limit).toNat

structure RowScan (V : Type) where
  flowChildren : JsMap JobId (Rows V)
  reconcileCount : ℕ
  cascadeCount : ℕ
  reconcileGroup : List (FlowChildSpec V)
  cascadeGroup : List CascadeChild

/-- One row of the sweep; returning it for reconciliation re-arms its eligibility timestamp. -/
def sweepRow (now : Millis) (options : FlowSweepOptions) (reconciling : Bool) (flowId : JobId)
    (scan : RowScan V) (row : MemFlowChild V) : RowScan V :=
  let scan :=
    if reconciling ∧ row.status = .pending ∧ row.pendingSince ≤ now - options.pendingAgeMs ∧
        scan.reconcileCount < options.pageSize then
      { scan with
        reconcileGroup := scan.reconcileGroup ++ [⟨row.childKey, row.storeKey, row.spec⟩]
        reconcileCount := scan.reconcileCount + 1
        flowChildren := scan.flowChildren.modify flowId fun rows =>
          rows.modify row.childKey fun row => { row with pendingSince := now } }
    else scan
  if row.status = .cancelled ∧ row.cascaded = false ∧ scan.cascadeCount < options.pageSize then
    { scan with
      cascadeGroup := scan.cascadeGroup ++ [⟨row.childKey, row.storeKey, row.spec.id⟩]
      cascadeCount := scan.cascadeCount + 1 }
  else scan

def sweepFlow (c : Core V) (now : Millis) (options : FlowSweepOptions) (acc : FlowSweepState V)
    (entry : JobId × Rows V) : FlowSweepState V :=
  let (flowId, rows) := entry
  let reconciling := (c.jobs.get? flowId).any fun parent => decide (parent.state = .waitingChildren)
  let scan := rows.values.foldl (sweepRow now options reconciling flowId)
    ⟨acc.flowChildren, acc.reconcileCount, acc.cascadeCount, [], []⟩
  { flowChildren := scan.flowChildren
    reconcileCount := scan.reconcileCount
    cascadeCount := scan.cascadeCount
    work :=
      { reconcile := if scan.reconcileGroup = [] then acc.work.reconcile
          else acc.work.reconcile ++ [(flowId, scan.reconcileGroup)]
        cascade := if scan.cascadeGroup = [] then acc.work.cascade
          else acc.work.cascade ++ [(flowId, scan.cascadeGroup)] } }

def flowSweepWork (s : Store V) (now : Millis) (options : FlowSweepOptions) :
    FlowSweepWork V × Store V :=
  let swept := s.flowChildren.entries.foldl (sweepFlow s.toCore now options)
    ⟨s.flowChildren, 0, 0, ⟨[], []⟩⟩
  (swept.work, { s with flowChildren := swept.flowChildren })

def cascadeRows (childKeys : List String) (rows : Rows V) : Rows V :=
  childKeys.foldl (fun rows key => rows.modify key fun row => { row with cascaded := true }) rows

def markChildrenCascaded (s : Store V) (flowId : JobId) (childKeys : List String) : Store V :=
  { s with flowChildren := s.flowChildren.modify flowId (cascadeRows childKeys) }

/-! ## Reads -/

def getJob (s : Store V) (id : JobId) : Option (JobRecord V) := (s.jobs.get? id).map snapshot

def getAttempts (s : Store V) (id : JobId) : List (AttemptRecord V) :=
  match s.jobs.get? id with
  | none => []
  | some job => job.attempts

def counts (s : Store V) (queue : Option QueueName) (state : JobState) : ℕ :=
  s.jobs.values.countP fun job =>
    decide (job.state = state) && queue.all fun q => decide (job.queue = q)

/-! ## All writing operations -/

inductive Op (V : Type)
  | enqueue (request : EnqueueRequest V) (ids : IdSource)
  | resumeEnqueue (request : EnqueueRequest V) (candidate : JobId)
  | claim (options : ClaimOptions)
  | ack (id : JobId) (token : String) (outcome : AckOutcome V)
  | release (id : JobId) (token : String)
  | extendLocks (locks : List Lock) (durationMs : Millis)
  | recoverStalled (maxStalledCount : ℤ)
  | awaitWake (queues : List QueueName) (wakeToken : ℕ)
  | dropWaiter (id : ℕ)
  | retry (id : JobId)
  | cancel (id : JobId)
  | cancelByDedupe (name key : String)
  | promote (id : JobId)
  | pause (queue : QueueName)
  | resume (queue : QueueName)
  | upsertSchedule (schedule : ScheduleRecord V)
  | removeSchedule (key : ScheduleKey)
  | advanceSchedule (key : ScheduleKey) (expectedRunAt nextRunAt : Millis)
  | tickSchedule (key : ScheduleKey) (expectedRunAt nextRunAt : Millis)
      (request : EnqueueRequest V)
  | recordChildResults (reports : List (FlowChildReport V))
  | deleteOutbox (ids : List ℕ)
  | flowSweepWork (options : FlowSweepOptions)
  | markChildrenCascaded (flowId : JobId) (childKeys : List String)
  | remove (id : JobId)
  | sweepHistory (ttlByState : HistoryTtlByState)

/-- The store an operation leaves behind. -/
def exec (s : Store V) (now : Millis) : Op V → Store V
  | .enqueue request ids => (enqueueOne s now request ids).2
  | .resumeEnqueue request candidate => (resumeEnqueue s now request candidate).2
  | .claim options => (claim s now options).2
  | .ack id token outcome => (ack s now id token outcome).2
  | .release id token => (release s now id token).2
  | .extendLocks locks durationMs => (extendLocks s now locks durationMs).2
  | .recoverStalled maxStalledCount => (recoverStalled s now maxStalledCount).2
  | .awaitWake queues wakeToken => (awaitWake s queues wakeToken).2
  | .dropWaiter id => dropWaiter s id
  | .retry id => (retry s now id).2
  | .cancel id => (cancelJob s now id).2
  | .cancelByDedupe name key => (cancelByDedupe s now name key).2
  | .promote id => (promote s now id).2
  | .pause queue => pause s queue
  | .resume queue => resume s queue
  | .upsertSchedule schedule => upsertSchedule s schedule
  | .removeSchedule key => (removeSchedule s key).2
  | .advanceSchedule key expectedRunAt nextRunAt => advanceSchedule s key expectedRunAt nextRunAt
  | .tickSchedule key expectedRunAt nextRunAt request =>
    (tickSchedule s now key expectedRunAt nextRunAt request).2
  | .recordChildResults reports => (recordChildResults s now reports).2
  | .deleteOutbox ids => deleteOutbox s ids
  | .flowSweepWork options => (flowSweepWork s now options).2
  | .markChildrenCascaded flowId childKeys => markChildrenCascaded s flowId childKeys
  | .remove id => (remove s id).2
  | .sweepHistory ttlByState => sweepHistory s now ttlByState

end EffectMq.Memory
