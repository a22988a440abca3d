import EffectMq.RedisJobStore.Scripts

/-! # The Redis driver: flows, sweeps and the list-index reconcile

The remaining scripts of `redis/scripts.ts` that write: the chunked fan-out ack, child reports, the
flow sweep, the history and dedup sweeps, and the two scripts of the list-index reconcile. `Script`
and `Keyspace.run` collect all of them.
-/

namespace EffectMq.Redis
set_option autoImplicit false
set_option maxHeartbeats 250000

variable {V : Type}

/-! ## Fan-out -/

/-- One dependency row of a chunk. -/
structure RowItem (V : Type) where
  childKey : String
  storeKey : String
  childJobId : JobId
  name : String
  spec : EnqueueRequest V

def rowHash (item : RowItem V) (now : ℤ) : RowHash V where
  childKey := item.childKey
  storeKey := item.storeKey
  childJobId := item.childJobId
  name := item.name
  spec := item.spec
  status := .pending
  exit := none
  failedReason := ""
  cascaded := false
  pendingSince := now

def stageRow (flowId : JobId) (now : ℤ) (ks : Keyspace V) (item : RowItem V) : Keyspace V :=
  { ks with
    flowRows := ks.flowRows.set (flowId, item.childKey) (rowHash item now)
    flowIndex := upd ks.flowIndex flowId ((ks.flowIndex flowId).add item.childKey 0)
    flowPending := ks.flowPending.add (flowMember flowId item.childKey) now }

/-- The arguments of one chunk of a fan-out ack. -/
structure FanOutChunk (V : Type) where
  final : Bool
  clearStaged : Bool
  failFast : Bool
  total : ℕ
  items : List (RowItem V)

/-- A chunk stages its rows while there is no manifest. -/
def stageRows (ks : Keyspace V) (id : JobId) (chunk : FanOutChunk V) (now : ℤ) : Keyspace V :=
  let ks := if chunk.clearStaged then dropRows ks id else ks
  chunk.items.foldl (stageRow id now) ks

/-- The final chunk: ledger entry, manifest and transition of the parent. -/
def landManifest (ks : Keyspace V) (id : JobId) (job : JobHash V) (chunk : FanOutChunk V) (now : ℤ) :
    Except (Keyspace V) (Keyspace V) :=
  let ks := appendAttempt ks id .fannedOut job.processedAt now none
  let ks := remActive ks id
  let flow := job.flow.getD
    { failFast := chunk.failFast, pending := chunk.total, completed := 0, failed := 0, cancelled := 0 }
  let ks := hset ks id fun job => { job with flow := some flow }
  if job.cancelRequested then
    finishCancelled (settleMarkRows ks id) id job.queue job.name job.processedAt now
  else if 0 < flow.pending then
    let ks := hset ks id fun job =>
      { job with state := .waitingChildren, lockToken := "", lockExpiresAt := none }
    .ok (countsMove ks job.queue .active .waitingChildren)
  else
    let ks := { ks with seq := ks.seq + 1 }
    let seq := ks.seq
    let ks := hset ks id fun job =>
      { job with state := .waiting, runAt := now, seq := seq, lockToken := "", lockExpiresAt := none }
    let ks := addWaiting ks job.queue job.priority seq id
    .ok (countsMove ks job.queue .active .waiting)

def fanOut (ks : Keyspace V) (id : JobId) (token : String) (chunk : FanOutChunk V) (now : ℤ) :
    Except (Keyspace V) (Except StoreError Unit × Keyspace V) :=
  match ks.jobs.get? id with
  | none => .ok (.error (.jobNotFound id), ks)
  | some job =>
    if job.state ≠ .active ∨ job.lockToken ≠ token then .ok (.error (.lockLost id), ks)
    else
      let ks := if job.flow = none then stageRows ks id chunk now else ks
      if chunk.final then (landManifest ks id job chunk now).map fun ks => (.ok (), ks)
      else .ok (.ok (), ks)

/-! ## Child results -/

/-- The arguments of one report. -/
structure ReportItem (V : Type) where
  flowId : JobId
  childKey : String
  outcome : TerminalState
  exit : Option V
  failedReason : String

structure Touch where
  last : ℕ
  firstFailed : Option (ℕ × String)

structure RecordReply where
  applied : Bool
  parentSettled : Bool
  deriving DecidableEq

def countOutcome (flow : FlowState) (outcome : TerminalState) : FlowState :=
  { flow with
    pending := flow.pending - 1
    completed := flow.completed + if outcome = .completed then 1 else 0
    failed := flow.failed + if outcome = .failed then 1 else 0
    cancelled := flow.cancelled + if outcome = .cancelled then 1 else 0 }

structure RecordState (V : Type) where
  ks : Keyspace V
  replies : List RecordReply
  touched : JsMap JobId Touch

def touchReport (touched : JsMap JobId Touch) (report : ReportItem V) (index : ℕ) :
    JsMap JobId Touch :=
  let touch := (touched.get? report.flowId).getD ⟨index, none⟩
  let firstFailed :=
    if report.outcome = .failed ∧ touch.firstFailed = none then some (index, report.childKey)
    else touch.firstFailed
  touched.set report.flowId ⟨index, firstFailed⟩

/-- Phase 1 for one report: it applies only to a row still pending. -/
def recordReport (acc : RecordState V) (entry : ReportItem V × ℕ) : RecordState V :=
  let (report, index) := entry
  match acc.ks.flowRows.get? (report.flowId, report.childKey) with
  | none => acc
  | some row =>
    if row.status ≠ .pending then acc
    else
      let ks := { acc.ks with
        flowRows := acc.ks.flowRows.set (report.flowId, report.childKey)
          { row with
            status := report.outcome.toChildStatus, exit := report.exit,
            failedReason := report.failedReason, cascaded := true }
        flowPending := acc.ks.flowPending.rem (flowMember report.flowId report.childKey) }
      let ks := hset ks report.flowId fun job =>
        { job with flow := job.flow.map fun flow => countOutcome flow report.outcome }
      { ks
        replies := acc.replies.set index ⟨true, false⟩
        touched := touchReport acc.touched report index }

def failFastReason (childKey : String) : String :=
  "effect-mq: flow child \"" ++ childKey ++ "\" failed"

def settleFailFast (ks : Keyspace V) (flowId : JobId) (job : JobHash V) (childKey : String)
    (now : ℤ) : Except (Keyspace V) (Keyspace V) :=
  let ks := settleMarkRows ks flowId
  let ks := hset ks flowId fun job =>
    { job with
      state := .failed, finishedAt := some now, cancelRequested := false,
      failedReason := failFastReason childKey }
  let ks := countsMove ks job.queue .waitingChildren .failed
  let ks := addTerminal ks job.name .failed now flowId
  conclude ks flowId job.name .failed .failed job.processedAt none now

def resumeParent (ks : Keyspace V) (flowId : JobId) (job : JobHash V) (now : ℤ) : Keyspace V :=
  let ks := { ks with seq := ks.seq + 1 }
  let seq := ks.seq
  let ks := hset ks flowId fun job => { job with state := .waiting, runAt := now, seq := seq }
  let ks := addWaiting ks job.queue job.priority seq flowId
  countsMove ks job.queue .waitingChildren .waiting

/-- Phase 2 for one touched flow: at most one settle, fail-fast first. -/
def settleTouched (now : ℤ) (acc : List RecordReply × Keyspace V) (entry : JobId × Touch) :
    Except (Keyspace V) (List RecordReply × Keyspace V) :=
  let (replies, ks) := acc
  let (flowId, touch) := entry
  match ks.jobs.get? flowId with
  | none => .ok acc
  | some job =>
    match job.flow with
    | none => .ok acc
    | some flow =>
      if job.state ≠ .waitingChildren then .ok acc
      else
        match if flow.failFast then touch.firstFailed else none with
        | some (index, childKey) =>
          (settleFailFast ks flowId job childKey now).map fun ks =>
            (replies.set index ⟨true, true⟩, ks)
        | none =>
          if flow.pending = 0 then
            .ok (replies.set touch.last ⟨true, true⟩, resumeParent ks flowId job now)
          else .ok acc

def recordChildResults (ks : Keyspace V) (reports : List (ReportItem V)) (now : ℤ) :
    Except (Keyspace V) (List RecordReply × Keyspace V) :=
  let recorded := reports.zipIdx.foldl recordReport
    ⟨ks, reports.map fun _ => ⟨false, false⟩, ∅⟩
  recorded.touched.entries.foldlM (settleTouched now) (recorded.replies, recorded.ks)

/-! ## The flow sweep -/

structure FlowSweep (V : Type) where
  reconcile : List (JobId × String × RowHash V)
  cascade : List (JobId × String × RowHash V)

/-- One member of the pending index: purged, rotated, healed or returned. -/
def sweepPending (now : ℤ) (acc : List (JobId × String × RowHash V) × Keyspace V)
    (member : FlowMember) : List (JobId × String × RowHash V) × Keyspace V :=
  let (returned, ks) := acc
  let (flowId, childKey) := ofLex member
  let job := ks.jobs.get? flowId
  let row := ks.flowRows.get? (flowId, childKey)
  if job.all fun job => job.state.isTerminal && job.flow.isNone then
    (returned,
      { ks with
        flowRows := ks.flowRows.delete (flowId, childKey)
        flowIndex := upd ks.flowIndex flowId ((ks.flowIndex flowId).rem childKey)
        flowPending := ks.flowPending.rem member })
  else if job.all fun job => decide (job.state ≠ .waitingChildren) then
    (returned, { ks with flowPending := ks.flowPending.add member now })
  else
    match row.filter fun row => decide (row.status = .pending) with
    | none => (returned, { ks with flowPending := ks.flowPending.rem member })
    | some row =>
      (returned ++ [(flowId, childKey, row)],
        { ks with flowPending := ks.flowPending.add member now })

/-- The rows are returned flat; the reply groups them by flow. -/
def flowSweepWork (ks : Keyspace V) (pendingAgeMs : ℤ) (limit : ℕ) (now : ℤ) :
    FlowSweep V × Keyspace V :=
  let due := (ks.flowPending.range fun t => decide (t ≤ now - pendingAgeMs)).take limit
  let (reconcile, ks) := due.foldl (sweepPending now) ([], ks)
  let owed := ks.flowCascade.members.take limit
  let cascade := owed.filterMap fun member =>
    (ks.flowRows.get? (ofLex member)).map fun row => ((ofLex member).1, (ofLex member).2, row)
  (⟨reconcile, cascade⟩, ks)

def markCascaded (flowId : JobId) (ks : Keyspace V) (childKey : String) : Keyspace V :=
  { ks with
    flowRows := ks.flowRows.modify (flowId, childKey) fun row => { row with cascaded := true }
    flowCascade := ks.flowCascade.rem (flowMember flowId childKey) }

def markChildrenCascaded (ks : Keyspace V) (flowId : JobId) (childKeys : List String) : Keyspace V :=
  childKeys.foldl (markCascaded flowId) ks

/-! ## The history and dedup sweeps -/

/-- The stricter of the store ceiling and the row's own age; an age that is no number is skipped. -/
def cutoffAge (ttl : Option JsNumber) (keep : Option KeepPolicy) (state : TerminalState) :
    Option JsNumber :=
  match ((keep.bind (keepPolicyFor · state)).bind (·.ageMs)).bind decodedNumber, ttl with
  | none, ttl => ttl
  | some age, none => some (.finite age)
  | some age, some ttl => if (JsNumber.finite age).lt ttl then some (.finite age) else some ttl

structure SweepPage where
  scanned : ℕ
  deleted : ℕ
  deriving DecidableEq

def sweepMember (state : TerminalState) (ttl : Option JsNumber) (now : ℤ) (acc : SweepPage × Keyspace V)
    (member : JobId × ℤ) : SweepPage × Keyspace V :=
  let (page, ks) := acc
  let (id, finishedAt) := member
  let page := { page with scanned := page.scanned + 1 }
  match ks.jobs.get? id with
  | none =>
    -- an orphan: its hash was removed out of band
    ({ page with deleted := page.deleted + 1 },
      { ks with
        finished := upd ks.finished state.toJobState ((ks.finished state.toJobState).rem id) })
  | some job =>
    match cutoffAge ttl job.keep state with
    | none => (page, ks)
    | some age =>
      if age.reached finishedAt now ∧ owesCascades ks id = false then
        ({ page with deleted := page.deleted + 1 }, deleteJob ks id)
      else (page, ks)

/-- `ZRANGEBYSCORE p:finished:<state> -inf now WITHSCORES LIMIT offset limit`. -/
def sweepBatch (ks : Keyspace V) (state : TerminalState) (limit offset : ℕ) (now : ℤ) :
    List (JobId × ℤ) :=
  (((ks.finished state.toJobState).withScores.filter fun member =>
    decide (member.2 ≤ now)).drop offset).take limit

/-- One bounded page over a terminal state. -/
def sweepState (ks : Keyspace V) (state : TerminalState) (ttl : Option JsNumber) (limit offset : ℕ)
    (now : ℤ) : SweepPage × Keyspace V :=
  (sweepBatch ks state limit offset now).foldl (sweepMember state ttl now) (⟨0, 0⟩, ks)

def dropDedupe (ks : Keyspace V) (key : String) : Keyspace V :=
  { ks with dedupes := ks.dedupes.delete key, dedupeIndex := ks.dedupeIndex.rem key }

/-- A pointer at a job that is gone or terminal goes, also one with a window that does not end. -/
def sweepPointer (acc : ℕ × Keyspace V) (key : String) : ℕ × Keyspace V :=
  let (removed, ks) := acc
  let job := (ks.dedupes.get? key).bind fun entry => ks.jobs.get? entry.jobId
  if job.all fun job => job.state.isTerminal then (removed + 1, dropDedupe ks key) else acc

/-- One bounded batch, without the migration of the finished set of older versions. -/
def sweepDedupes (ks : Keyspace V) (limit : ℕ) (now : ℤ) : ℕ × Keyspace V :=
  let expired := (ks.dedupeIndex.range fun t => decide (t ≤ now)).take limit
  let ks := expired.foldl dropDedupe ks
  let pendings := (ks.dedupeIndex.range fun t => decide (t = ⊤)).take limit
  let (removed, ks) := pendings.foldl sweepPointer (0, ks)
  (expired.length + removed, ks)

/-! ## The list-index reconcile -/

/-- Index one existing row; a missing one is skipped. -/
def indexInto (kind : IndexKind) (ks : Keyspace V) (id : JobId) : Keyspace V :=
  match ks.jobs.get? id with
  | none => ks
  | some job =>
    match kind with
    | .name => { ks with byname := upd ks.byname job.name ((ks.byname job.name).add id job.enqueuedAt) }
    | .queue =>
      { ks with byqueue := upd ks.byqueue job.queue ((ks.byqueue job.queue).add id job.enqueuedAt) }

/-- One chunk of a full rebuild. -/
def indexMembers (ks : Keyspace V) (kind : IndexKind) (ids : List JobId) : Keyspace V :=
  ids.foldl (indexInto kind) ks

/-- One page of the tail heal; returns how many members it scanned. -/
def indexTailPage (ks : Keyspace V) (kind : IndexKind) (min : ℤ) (offset pageSize : ℕ) :
    ℕ × Keyspace V :=
  let batch := ((ks.all.range fun t => decide (min ≤ t)).drop offset).take pageSize
  (batch.length, indexMembers ks kind batch)

/-! ## All writing scripts -/

inductive Script (V : Type)
  | enqueue (mode : IdMode) (id : JobId) (request : EnqueueRequest V)
  | enqueueMany (items : List (BatchItem V))
  | claim (options : ClaimOptions)
  | ack (id : JobId) (token : String) (outcome : Settled V)
  | fanOut (id : JobId) (token : String) (chunk : FanOutChunk V)
  | release (id : JobId) (token : String)
  | extendLocks (locks : List Lock) (durationMs : ℤ)
  | recoverStalled (maxStalledCount : ℤ)
  | remove (id : JobId)
  | retry (id : JobId)
  | cancel (id : JobId)
  | promote (id : JobId)
  | pause (queue : QueueName)
  | resume (queue : QueueName)
  | upsertSchedule (schedule : ScheduleRecord V)
  | removeSchedule (key : ScheduleKey)
  | advanceSchedule (key : ScheduleKey) (expectedRunAt nextRunAt : ℤ)
  | tickSchedule (key : ScheduleKey) (expectedRunAt nextRunAt : ℤ) (id : JobId)
      (request : EnqueueRequest V)
  | recordChildResults (reports : List (ReportItem V))
  | flowSweepWork (pendingAgeMs : ℤ) (limit : ℕ)
  | markChildrenCascaded (flowId : JobId) (childKeys : List String)
  | deleteOutbox (ids : List ℕ)
  | sweepState (state : TerminalState) (ttl : Option JsNumber) (limit offset : ℕ)
  | sweepDedupes (limit : ℕ)
  | indexMembers (kind : IndexKind) (ids : List JobId)
  | indexTailPage (kind : IndexKind) (min : ℤ) (offset pageSize : ℕ)
  | setReady (kind : IndexKind) (bootAt : Option ℤ)

/-- The keyspace a script leaves, whether it finished or stopped. -/
def leaves {α : Type} : Except (Keyspace V) (α × Keyspace V) → Keyspace V
  | .ok (_, ks) => ks
  | .error ks => ks

/-- The keyspace after one call at a clock reading. -/
def Keyspace.run (indexes : IndexConfig) (ks : Keyspace V) (now : ℤ) : Script V → Keyspace V
  | .enqueue mode id request => (enqueue indexes ks mode id request now).2
  | .enqueueMany items => (enqueueMany indexes ks now items).2
  | .claim options => (claim ks options now).2
  | .ack id token outcome => leaves (ack ks id token outcome now)
  | .fanOut id token chunk => leaves (fanOut ks id token chunk now)
  | .release id token => leaves (release ks id token now)
  | .extendLocks locks durationMs => (extendLocks ks locks durationMs now).2
  | .recoverStalled maxStalledCount => leaves (recoverStalled ks maxStalledCount now)
  | .remove id => (remove ks id).2
  | .retry id => (retry ks id now).2
  | .cancel id => leaves (cancel ks id now)
  | .promote id => (promote ks id now).2
  | .pause queue => pause ks queue
  | .resume queue => resume ks queue
  | .upsertSchedule schedule => upsertSchedule ks schedule
  | .removeSchedule key => (removeSchedule ks key).2
  | .advanceSchedule key expectedRunAt nextRunAt => (advanceSchedule ks key expectedRunAt nextRunAt).2
  | .tickSchedule key expectedRunAt nextRunAt id request =>
    (tickSchedule indexes ks key expectedRunAt nextRunAt id request now).2
  | .recordChildResults reports => leaves (recordChildResults ks reports now)
  | .flowSweepWork pendingAgeMs limit => (flowSweepWork ks pendingAgeMs limit now).2
  | .markChildrenCascaded flowId childKeys => markChildrenCascaded ks flowId childKeys
  | .deleteOutbox ids => { ks with outbox := ks.outbox.filter fun entry => decide (entry.id ∉ ids) }
  | .sweepState state ttl limit offset => (sweepState ks state ttl limit offset now).2
  | .sweepDedupes limit => (sweepDedupes ks limit now).2
  | .indexMembers kind ids => indexMembers ks kind ids
  | .indexTailPage kind min offset pageSize => (indexTailPage ks kind min offset pageSize).2
  | .setReady kind bootAt => { ks with ready := upd ks.ready kind bootAt }

end EffectMq.Redis
