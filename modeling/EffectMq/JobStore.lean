import Mathlib.Algebra.Order.Monoid.Unbundled.WithTop
import Mathlib.Data.Rat.Defs
import EffectMq.Library.JsMap

/-! # The storage seam: records, requests and outcomes

The types of `JobStore.ts` that every driver stores and exchanges. Ids, names, queues, keys and
tokens are strings, clock readings and delays are integer milliseconds. Payloads and exits are
schema-encoded values that no store inspects: they are a type parameter `V`, and an `unknown` that
may be `undefined` is an `Option V`.
-/

namespace EffectMq
set_option autoImplicit false
set_option maxHeartbeats 250000

abbrev JobId := String
abbrev QueueName := String
abbrev ScheduleKey := String
abbrev Millis := ℤ

/-! The end of a window that may not end is a `WithTop Millis`, in the order of `WithTop` itself. -/

instance : LE (WithTop Millis) := WithTop.instLE
instance : LT (WithTop Millis) := WithTop.instLT
instance : DecidableLE (WithTop Millis) := WithTop.decidableLE
instance : DecidableLT (WithTop Millis) := WithTop.decidableLT

/-! ## Job lifecycle states -/

inductive JobState
  | waiting | delayed | active | waitingChildren | completed | failed | cancelled
  deriving DecidableEq, Repr

/-- Also the outcome of a child report. -/
inductive TerminalState
  | completed | failed | cancelled
  deriving DecidableEq, Repr

def TerminalState.toJobState : TerminalState → JobState
  | .completed => .completed
  | .failed => .failed
  | .cancelled => .cancelled

/-- Membership in `TERMINAL_STATES`. -/
def JobState.isTerminal : JobState → Bool
  | .completed | .failed | .cancelled => true
  | _ => false

def JobState.terminal? : JobState → Option TerminalState
  | .completed => some .completed
  | .failed => some .failed
  | .cancelled => some .cancelled
  | _ => none

@[simp] theorem isTerminal_toJobState (t : TerminalState) : t.toJobState.isTerminal = true := by
  cases t <;> rfl

@[simp] theorem terminal?_toJobState (t : TerminalState) : t.toJobState.terminal? = some t := by
  cases t <;> rfl

/-! ## Policies carried on a record -/

inductive BackoffKind
  | fixed | exponential
  deriving DecidableEq, Repr

structure BackoffPolicy where
  kind : BackoffKind
  delayMs : Millis
  factor : Option ℚ
  deriving DecidableEq

/-- A JavaScript number. Counts and durations are the caller's, so they may be fractional, infinite
or `NaN`; finite values are exact. -/
inductive JsNumber
  | finite (value : ℚ)
  | posInf
  | negInf
  | nan
  deriving DecidableEq

instance (n : ℕ) : OfNat JsNumber n := ⟨.finite n⟩

/-- The operator `<`. -/
def JsNumber.lt : JsNumber → JsNumber → Bool
  | .finite a, .finite b => decide (a < b)
  | .finite _, .posInf | .negInf, .finite _ | .negInf, .posInf => true
  | _, _ => false

/-- `t <= now - age`. -/
def JsNumber.reached (age : JsNumber) (t now : Millis) : Bool :=
  match age with
  | .finite q => decide ((t : ℚ) ≤ now - q)
  | .negInf => true
  | .posInf | .nan => false

structure KeepStatePolicy where
  count : Option JsNumber
  ageMs : Option JsNumber
  deriving DecidableEq

/-- Retention split by terminal state. `flat` is the `{count, ageMs}` shape that 0.2.x rows carry,
`none` when neither key is in the object. -/
structure KeepPolicy where
  completed : Option KeepStatePolicy := none
  failed : Option KeepStatePolicy := none
  cancelled : Option KeepStatePolicy := none
  flat : Option KeepStatePolicy := none
  deriving DecidableEq

def KeepPolicy.of (keep : KeepPolicy) : TerminalState → Option KeepStatePolicy
  | .completed => keep.completed
  | .failed => keep.failed
  | .cancelled => keep.cancelled

/-- `HistoryTtlInput` normalized to milliseconds per terminal state. -/
structure HistoryTtlByState where
  completed : Option JsNumber
  failed : Option JsNumber
  cancelled : Option JsNumber
  deriving DecidableEq

def HistoryTtlByState.of (ttl : HistoryTtlByState) : TerminalState → Option JsNumber
  | .completed => ttl.completed
  | .failed => ttl.failed
  | .cancelled => ttl.cancelled

/-- A window of `ttlMs`; an infinite one does not end. -/
structure DedupePolicy where
  key : String
  ttlMs : Option (WithTop Millis)
  extend : Bool
  replace : Bool
  deriving DecidableEq

structure TraceContext where
  traceId : String
  spanId : String
  sampled : Bool
  delayed : Bool
  deriving DecidableEq

/-! ## Flows -/

/-- The link from a flow child job to its parent flow. -/
structure ParentEnvelope where
  flowName : String
  flowId : JobId
  childKey : String
  parentStoreKey : String
  depth : ℕ
  deriving DecidableEq

/-- Flow bookkeeping on a parent job; its presence is the phase marker. -/
structure FlowState where
  failFast : Bool
  pending : ℕ
  completed : ℕ
  failed : ℕ
  cancelled : ℕ
  deriving DecidableEq

structure EnqueueRequest (V : Type) where
  id : Option JobId
  name : String
  queue : QueueName
  payload : V
  metadata : List (String × String)
  priority : ℤ
  attemptsMax : ℤ
  backoff : Option BackoffPolicy
  keep : Option KeepPolicy
  timeoutMs : Option Millis
  dedupe : Option DedupePolicy
  trace : Option TraceContext
  parent : Option ParentEnvelope
  delayMs : Millis
  deriving DecidableEq

/-- A request that sets no option. -/
def EnqueueRequest.plain {V : Type} (id : JobId) (name : String) (queue : QueueName) (payload : V) :
    EnqueueRequest V where
  id := some id
  name := name
  queue := queue
  payload := payload
  metadata := []
  priority := 0
  attemptsMax := 1
  backoff := none
  keep := none
  timeoutMs := none
  dedupe := none
  trace := none
  parent := none
  delayMs := 0

structure EnqueueResult where
  id : JobId
  duplicate : Bool
  deriving DecidableEq

/-- One child of a fan-out, persisted on its dependency row. -/
structure FlowChildSpec (V : Type) where
  childKey : String
  storeKey : String
  request : EnqueueRequest V
  deriving DecidableEq

/-- The status of a dependency row. -/
inductive ChildStatus
  | pending | completed | failed | cancelled
  deriving DecidableEq, Repr

def TerminalState.toChildStatus : TerminalState → ChildStatus
  | .completed => .completed
  | .failed => .failed
  | .cancelled => .cancelled

theorem toChildStatus_ne_pending (t : TerminalState) : t.toChildStatus ≠ .pending := by
  cases t <;> decide

/-- A child outcome delivered into the parent store. -/
structure FlowChildReport (V : Type) where
  flowId : JobId
  childKey : String
  outcome : TerminalState
  exit : Option V
  failedReason : Option String
  deriving DecidableEq

/-- An undelivered child report in a child store; `id` is the number `n` of the entry id `ob-n`. -/
structure OutboxEntry (V : Type) where
  id : ℕ
  flowName : String
  parentStoreKey : String
  report : FlowChildReport V
  deriving DecidableEq

/-! ## The run ledger and the job record -/

inductive AttemptOutcome
  | completed | retried | failed | stalled | cancelled | fannedOut
  deriving DecidableEq, Repr

structure AttemptRecord (V : Type) where
  attempt : ℕ
  startedAt : Option Millis
  finishedAt : Millis
  outcome : AttemptOutcome
  exit : Option V
  deriving DecidableEq

/-- A job as `getJob` returns it: the stored record without its ledger, lock and sequence number. -/
structure JobRecord (V : Type) where
  id : JobId
  name : String
  queue : QueueName
  payload : V
  metadata : List (String × String)
  state : JobState
  priority : ℤ
  attemptsMax : ℤ
  attemptsMade : ℕ
  stalledCount : ℕ
  backoff : Option BackoffPolicy
  keep : Option KeepPolicy
  timeoutMs : Option Millis
  cancelRequested : Bool
  dedupeKey : Option String
  trace : Option TraceContext
  parent : Option ParentEnvelope
  flow : Option FlowState
  runAt : Millis
  enqueuedAt : Millis
  processedAt : Option Millis
  finishedAt : Option Millis
  exit : Option V
  failedReason : Option String
  deriving DecidableEq

/-! ## Listing -/

inductive ListField
  | enqueuedAt | runAt | finishedAt
  deriving DecidableEq, Repr

inductive ListDirection
  | asc | desc
  deriving DecidableEq, Repr

/-- Filters, ordering and page of a `list`. -/
structure ListOptions where
  queue : Option QueueName := none
  name : Option String := none
  states : Option (List JobState) := none
  metadata : Option (List (String × String)) := none
  orderBy : Option ListField := none
  order : Option ListDirection := none
  cursor : Option String := none
  limit : Option ℤ := none
  deriving DecidableEq

/-- The default order is newest first. -/
def ListOptions.field (options : ListOptions) : ListField := options.orderBy.getD .enqueuedAt

def ListOptions.descending (options : ListOptions) : Bool :=
  decide (options.order.getD .desc = .desc)

def ListOptions.pageSize (options : ListOptions) : ℕ := (max 1 (options.limit.getD 50)).toNat

structure ListResult (V : Type) where
  items : List (JobRecord V)
  cursor : Option String
  deriving DecidableEq

/-! ## Acknowledgements, schedules and errors -/

inductive AckOutcome (V : Type)
  | complete (exit : Option V)
  | retry (delayMs : Millis) (exit : Option V)
  | fail (exit : Option V)
  | cancelled
  | fanOut (failFast : Bool) (children : List (FlowChildSpec V))
  deriving DecidableEq

structure ScheduleRecord (V : Type) where
  key : ScheduleKey
  jobName : String
  queue : QueueName
  cron : Option String
  tz : Option String
  everyMs : Option Millis
  payload : V
  metadata : List (String × String)
  priority : ℤ
  attemptsMax : ℤ
  backoff : Option BackoffPolicy
  keep : Option KeepPolicy
  timeoutMs : Option Millis
  group : Option String
  nextRunAt : Millis
  deriving DecidableEq

/-- The typed errors of the service. -/
inductive StoreError
  | jobNotFound (jobId : JobId)
  | lockLost (jobId : JobId)
  | jobNotRetryable (jobId : JobId) (state : JobState)
  | jobNotCancellable (jobId : JobId) (state : JobState)
  | jobNotPromotable (jobId : JobId) (state : JobState)
  | jobStoreError (message : String)
  deriving DecidableEq

end EffectMq
