import Mathlib.Data.List.Sort
import Mathlib.Data.Rat.Floor
import EffectMq.JobStore

/-! # The in-memory driver: state and the helpers its operations share

`makeStoreUnsafe` of `MemoryJobStore.ts`. `Core` holds the jobs, the dependency rows and the outbox;
`Store` adds the dedup registry, schedules, pauses, counters and the wake-up book-keeping. Every
helper is the source's helper of the same name with the mutated state passed through.

A `MemJob` is a reference in the source. Here a helper takes the record it works on and the caller
writes it back under its own id (`Core.putJob`).
-/

namespace EffectMq.Memory
set_option autoImplicit false
set_option maxHeartbeats 250000

variable {V : Type}

/-! ## State -/

/-- A stored job: the record, its ledger, its place in the FIFO order and its lock. -/
structure MemJob (V : Type) extends JobRecord V where
  attempts : List (AttemptRecord V)
  seq : ℕ
  lockToken : Option String
  lockExpiresAt : Option Millis
  deriving DecidableEq

def snapshot (job : MemJob V) : JobRecord V := job.toJobRecord

/-- A dependency row. -/
structure MemFlowChild (V : Type) where
  flowId : JobId
  childKey : String
  storeKey : String
  spec : EnqueueRequest V
  status : ChildStatus
  exit : Option V
  failedReason : Option String
  cascaded : Bool
  pendingSince : Millis
  deriving DecidableEq

abbrev Rows (V : Type) := JsMap String (MemFlowChild V)

structure Core (V : Type) where
  jobs : JsMap JobId (MemJob V)
  flowChildren : JsMap JobId (Rows V)
  outbox : List (OutboxEntry V)
  outboxSeq : ℕ
  deriving DecidableEq

/-- In pending mode there is no window; a window may not end. -/
structure DedupeEntry where
  jobId : JobId
  expiresAt : Option (WithTop Millis)
  deriving DecidableEq

/-- A parked `awaitWake`; `id` names its deferred. -/
structure Waiter where
  id : ℕ
  queues : List QueueName
  deriving DecidableEq

structure Store (V : Type) extends Core V where
  schedules : JsMap ScheduleKey (ScheduleRecord V)
  paused : List QueueName
  dedupes : JsMap String DedupeEntry
  seq : ℕ
  idCounter : ℕ
  wakeVersion : ℕ
  lastBroadcast : ℕ
  lastWake : JsMap QueueName ℕ
  waiters : List Waiter
  nextWaiter : ℕ
  deriving DecidableEq

def Core.empty : Core V := ⟨∅, ∅, [], 0⟩

/-- The store as `makeStoreUnsafe` starts it. -/
def Store.empty : Store V :=
  { Core.empty with
    schedules := ∅, paused := [], dedupes := ∅, seq := 0, idCounter := 0, wakeVersion := 0,
    lastBroadcast := 0, lastWake := ∅, waiters := [], nextWaiter := 0 }

def Core.putJob (c : Core V) (job : MemJob V) : Core V :=
  { c with jobs := c.jobs.set job.id job }

def Store.putJob (s : Store V) (job : MemJob V) : Store V :=
  { s with toCore := s.toCore.putJob job }

/-! ## Wake-ups -/

def lastWakeFor (s : Store V) (queue : QueueName) : ℕ :=
  max ((s.lastWake.get? queue).getD 0) s.lastBroadcast

/-- `none` broadcasts. The waiters it resolves leave the registry. -/
def signalWake (s : Store V) (queue : Option QueueName) : Store V :=
  let version := s.wakeVersion + 1
  match queue with
  | none => { s with wakeVersion := version, lastBroadcast := version, waiters := [] }
  | some q =>
    { s with
      wakeVersion := version
      lastWake := s.lastWake.set q version
      waiters := s.waiters.filter fun w => !w.queues.contains q }

/-! ## Job helpers -/

def promoteDue (s : Store V) (now : Millis) : Store V :=
  { s with
    jobs := s.jobs.mapValues fun _ job =>
      if job.state = .delayed ∧ job.runAt ≤ now then { job with state := .waiting } else job }

def clearLock (job : MemJob V) : MemJob V :=
  { job with lockToken := none, lockExpiresAt := none }

def recordAttempt (job : MemJob V) (outcome : AttemptOutcome) (finishedAt : Millis)
    (exit : Option V) : MemJob V :=
  { job with
    attempts := job.attempts ++
      [{ attempt := job.attempts.length + 1, startedAt := job.processedAt, finishedAt, outcome,
         exit }] }

/-- Appended with every terminal transition of a job that carries an envelope. -/
def Core.appendOutbox (c : Core V) (job : MemJob V) (outcome : TerminalState) : Core V :=
  match job.parent with
  | none => c
  | some parent =>
    { c with
      outboxSeq := c.outboxSeq + 1
      outbox := c.outbox ++
        [{ id := c.outboxSeq + 1, flowName := parent.flowName,
           parentStoreKey := parent.parentStoreKey,
           report := { flowId := parent.flowId, childKey := parent.childKey, outcome,
                       exit := job.exit, failedReason := job.failedReason } }] }

def dedupeMapKey (name key : String) : String := name ++ "\u0000" ++ key

/-- A pending-mode entry, or a window that is over. -/
def DedupeEntry.spent (entry : DedupeEntry) (now : Millis) : Bool :=
  match entry.expiresAt with
  | none => true
  | some t => decide (t ≤ now)

/-- A job leaving the pending states frees its pending-mode entry; live windows outlast it. -/
def releaseDedupe (s : Store V) (job : MemJob V) (now : Millis) : Store V :=
  match job.dedupeKey with
  | none => s
  | some k =>
    let key := dedupeMapKey job.name k
    match s.dedupes.get? key with
    | none => s
    | some entry =>
      if entry.jobId = job.id ∧ entry.spent now then { s with dedupes := s.dedupes.delete key }
      else s

/-! ## Flow rows -/

/-- A pruned or removed flow parent takes its rows with it. -/
def Core.deleteJob (c : Core V) (id : JobId) : Core V :=
  { c with jobs := c.jobs.delete id, flowChildren := c.flowChildren.delete id }

def Core.owesCascades (c : Core V) (id : JobId) : Bool :=
  match c.flowChildren.get? id with
  | none => false
  | some rows => rows.values.any fun row => decide (row.status = .cancelled) && !row.cascaded

/-- A remaining pending row flips to cancelled, its cancel still owed to the child store. -/
def markRow (row : MemFlowChild V) : MemFlowChild V :=
  if row.status = .pending then { row with status := .cancelled, cascaded := false } else row

def countStatus (rows : Rows V) (status : ChildStatus) : ℕ :=
  rows.values.countP fun row => decide (row.status = status)

/-- Returns how many rows flipped. -/
def Core.markPendingRowsCancelled (c : Core V) (flowId : JobId) : Core V × ℕ :=
  match c.flowChildren.get? flowId with
  | none => (c, 0)
  | some rows =>
    ({ c with flowChildren := c.flowChildren.set flowId (rows.mapValues fun _ => markRow) },
      countStatus rows .pending)

def settledFlow (flow : FlowState) (marked : ℕ) : FlowState :=
  { flow with pending := 0, cancelled := flow.cancelled + marked }

def Core.settleMarkRows (c : Core V) (job : MemJob V) : Core V × MemJob V :=
  let (c, marked) := c.markPendingRowsCancelled job.id
  match job.flow with
  | none => (c, job)
  | some flow => (c, { job with flow := some (settledFlow flow marked) })

/-- A job cancelled from `waiting-children` settles its remaining rows first. -/
def Core.settleIfParked (c : Core V) (job : MemJob V) : Core V × MemJob V :=
  if job.state = .waitingChildren then c.settleMarkRows job else (c, job)

/-! ## Retention -/

/-- A policy without any per-state rule that has the flat 0.2.x shape applies to every state. -/
def keepPolicyFor (keep : Option KeepPolicy) (state : JobState) : Option KeepStatePolicy :=
  match keep with
  | none => none
  | some keep =>
    match state.terminal?.bind keep.of with
    | some policy => some policy
    | none =>
      if keep.completed = none ∧ keep.failed = none ∧ keep.cancelled = none then keep.flat
      else none

/-- Newest first: by `finishedAt`, then by `seq`, both descending. -/
def newerFirst (a b : MemJob V) : Prop :=
  b.finishedAt.getD 0 < a.finishedAt.getD 0 ∨
    b.finishedAt.getD 0 = a.finishedAt.getD 0 ∧ b.seq ≤ a.seq

instance (a b : MemJob V) : Decidable (newerFirst a b) :=
  inferInstanceAs (Decidable (_ ∨ _))

def finishedBefore (job : MemJob V) (now : Millis) (age : JsNumber) : Bool :=
  match job.finishedAt with
  | none => false
  | some t => age.reached t now

/-- `slice(Math.max(0, count))`: the start is cut to an integer, `NaN` counts as 0. -/
def sliceFrom {α : Type} (count : JsNumber) (xs : List α) : List α :=
  match count with
  | .finite q => xs.drop ⌊max 0 q⌋.toNat
  | .posInf => []
  | .negInf | .nan => xs

/-- The ids a retention policy drops: those past the age, then those beyond the count. -/
def keepVictims (policy : KeepStatePolicy) (peers : List (MemJob V)) (now : Millis) : List JobId :=
  let aged := match policy.ageMs with
    | none => []
    | some age => (peers.filter fun peer => finishedBefore peer now age).map (·.id)
  let beyond := match policy.count with
    | none => []
    | some count => (sliceFrom count peers).map (·.id)
  aged ++ beyond

def Core.deleteUnowed (c : Core V) (ids : List JobId) : Core V :=
  ids.foldl (fun c id => if c.owesCascades id then c else c.deleteJob id) c

/-- Terminal retention among the jobs that share this job's name and state. -/
def Core.applyKeep (c : Core V) (job : MemJob V) (now : Millis) : Core V :=
  match keepPolicyFor job.keep job.state with
  | none => c
  | some policy =>
    let peers := (c.jobs.values.filter fun peer =>
      decide (peer.name = job.name ∧ peer.state = job.state)).insertionSort newerFirst
    c.deleteUnowed (keepVictims policy peers now)

/-- The tail of a terminal transition: the record is written, its report appended, its dedup entry
released and its retention group pruned. -/
def Store.terminate (s : Store V) (job : MemJob V) (outcome : TerminalState) (now : Millis) :
    Store V :=
  let s := s.putJob job
  let s := { s with toCore := s.toCore.appendOutbox job outcome }
  let s := releaseDedupe s job now
  { s with toCore := s.toCore.applyKeep job now }

/-- The age after which the history sweep drops a job: the stricter of its own keep age and the
store ceiling. -/
def effectiveAge (job : MemJob V) (state : TerminalState) (ttlByState : HistoryTtlByState) :
    Option JsNumber :=
  match (keepPolicyFor job.keep state.toJobState).bind (·.ageMs), ttlByState.of state with
  | some age, none => some age
  | some age, some ttl => if age.lt ttl then some age else some ttl
  | none, ttl => ttl

def sweepJob (now : Millis) (ttlByState : HistoryTtlByState) (c : Core V) (job : MemJob V) :
    Core V :=
  match job.state.terminal? with
  | none => c
  | some state =>
    match effectiveAge job state ttlByState with
    | none => c
    | some age =>
      if finishedBefore job now age ∧ c.owesCascades job.id = false then c.deleteJob job.id else c

def dedupeAlive (c : Core V) (now : Millis) (entry : DedupeEntry) : Bool :=
  match entry.expiresAt with
  | some t => decide (now < t)
  | none =>
    match c.jobs.get? entry.jobId with
    | none => false
    | some job => !job.state.isTerminal

def sweepHistory (s : Store V) (now : Millis) (ttlByState : HistoryTtlByState) : Store V :=
  let s := { s with toCore := s.jobs.values.foldl (sweepJob now ttlByState) s.toCore }
  { s with dedupes := s.dedupes.filter (dedupeAlive s.toCore now) }

/-! ## Cancelling and inserting -/

def markCancelled (s : Store V) (job : MemJob V) (now : Millis) : Store V :=
  let job := clearLock job
  let job := { job with cancelRequested := false }
  let (core, job) := s.toCore.settleIfParked job
  let s := { s with toCore := core }
  let job := { job with state := .cancelled, finishedAt := some now }
  let job := recordAttempt job .cancelled now none
  s.terminate job .cancelled now

def cancelJob (s : Store V) (now : Millis) (id : JobId) : Except StoreError Unit × Store V :=
  match s.jobs.get? id with
  | none => (.error (.jobNotFound id), s)
  | some job =>
    match job.state with
    | .waiting | .delayed | .waitingChildren => (.ok (), markCancelled s job now)
    | .active => (.ok (), s.putJob { job with cancelRequested := true })
    | _ => (.error (.jobNotCancellable id job.state), s)

/-- The record of a fresh job. -/
def newJob (id : JobId) (request : EnqueueRequest V) (now : Millis) (seq : ℕ) : MemJob V where
  id := id
  name := request.name
  queue := request.queue
  payload := request.payload
  metadata := request.metadata
  state := if 0 < request.delayMs then .delayed else .waiting
  priority := request.priority
  attemptsMax := request.attemptsMax
  attemptsMade := 0
  stalledCount := 0
  backoff := request.backoff
  keep := request.keep
  timeoutMs := request.timeoutMs
  cancelRequested := false
  dedupeKey := request.dedupe.map (·.key)
  trace := request.trace
  parent := request.parent
  flow := none
  runAt := now + max 0 request.delayMs
  enqueuedAt := now
  processedAt := none
  finishedAt := none
  exit := none
  failedReason := none
  attempts := []
  seq := seq
  lockToken := none
  lockExpiresAt := none

def insertJobRecord (s : Store V) (id : JobId) (request : EnqueueRequest V) (now : Millis) :
    Store V :=
  let s := { s with seq := s.seq + 1 }
  signalWake (s.putJob (newJob id request now s.seq)) (some request.queue)

end EffectMq.Memory
