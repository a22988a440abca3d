import Mathlib.Data.String.Basic
import Mathlib.Order.WithBot
import EffectMq.JobStore
import EffectMq.Library.ZSet

/-! # The Redis driver: the keyspace

The keys of `redis/scripts.ts` under one prefix, a typed field for each family. Hash fields that the
scripts only carry (payload, metadata and policies, as JSON) are the values they encode; an optional
one is an `Option`, its absence being the empty string of the source. Three fields hold free text
and keep the empty string for "absent", as the scripts compare with it: `dedupeKey`, `failedReason`
and `lockToken`.

Rows and sweep-index members that join a flow id and a child key with NUL are pairs. NUL sorts before
every other character, so pairs sort as the joined members do.
-/

namespace EffectMq.Redis
set_option autoImplicit false
set_option maxHeartbeats 250000

variable {V : Type}

/-! ## Hashes -/

/-- `p:job:<id>`. -/
structure JobHash (V : Type) where
  id : JobId
  name : String
  queue : QueueName
  payload : V
  metadata : List (String × String)
  state : JobState
  priority : ℤ
  attemptsMax : ℤ
  attemptsMade : ℕ
  stalledCount : ℕ
  backoff : Option BackoffPolicy
  keep : Option KeepPolicy
  timeoutMs : Option Millis
  cancelRequested : Bool
  dedupeKey : String
  trace : Option TraceContext
  parent : Option ParentEnvelope
  flow : Option FlowState
  runAt : ℤ
  enqueuedAt : ℤ
  processedAt : Option ℤ
  finishedAt : Option ℤ
  exit : Option V
  failedReason : String
  lockToken : String
  lockExpiresAt : Option ℤ
  seq : ℕ
  deriving DecidableEq

/-- `p:dedupe:<name>\0<key>`. The end of the window is `""` in pending mode, and may be `inf`. -/
structure DedupeHash where
  jobId : JobId
  expiresAt : Option (WithTop ℤ)
  deriving DecidableEq

/-- `p:flowchild:<flowId>\0<childKey>`. -/
structure RowHash (V : Type) where
  childKey : String
  storeKey : String
  childJobId : JobId
  name : String
  spec : EnqueueRequest V
  status : ChildStatus
  exit : Option V
  failedReason : String
  cascaded : Bool
  pendingSince : ℤ
  deriving DecidableEq

/-! ## Keys -/

/-- The optional list indexes a store maintains. -/
structure IndexConfig where
  name : Bool
  queue : Bool
  deriving DecidableEq

inductive IndexKind
  | name | queue
  deriving DecidableEq

/-- A member of a sweep index: flow id and child key. -/
abbrev FlowMember := JobId ×ₗ String

structure Keyspace (V : Type) where
  seq : ℕ
  jobs : JsMap JobId (JobHash V)
  attempts : JobId → List (AttemptRecord V)
  waiting : QueueName → ZSet ℤ String
  delayed : QueueName → ZSet ℤ JobId
  active : ZSet ℤ JobId
  all : ZSet ℤ JobId
  byname : String → ZSet ℤ JobId
  byqueue : QueueName → ZSet ℤ JobId
  finished : JobState → ZSet ℤ JobId
  terminal : String → JobState → ZSet ℤ JobId
  counts : QueueName → JobState → ℤ
  ready : IndexKind → Option ℤ
  paused : List QueueName
  schedules : JsMap ScheduleKey (ScheduleRecord V)
  scheduleIndex : ZSet ℤ ScheduleKey
  dedupes : JsMap String DedupeHash
  dedupeIndex : ZSet (WithTop ℤ) String
  flowRows : JsMap (JobId × String) (RowHash V)
  flowIndex : JobId → ZSet ℤ String
  flowPending : ZSet ℤ FlowMember
  flowCascade : ZSet ℤ FlowMember
  outbox : List (OutboxEntry V)
  outboxSeq : ℕ

/-- A prefix nothing was written under. -/
def Keyspace.empty : Keyspace V where
  seq := 0
  jobs := ∅
  attempts := fun _ => []
  waiting := fun _ => ∅
  delayed := fun _ => ∅
  active := ∅
  all := ∅
  byname := fun _ => ∅
  byqueue := fun _ => ∅
  finished := fun _ => ∅
  terminal := fun _ _ => ∅
  counts := fun _ _ => 0
  ready := fun _ => none
  paused := []
  schedules := ∅
  scheduleIndex := ∅
  dedupes := ∅
  dedupeIndex := ∅
  flowRows := ∅
  flowIndex := fun _ => ∅
  flowPending := ∅
  flowCascade := ∅
  outbox := []
  outboxSeq := 0

/-- Write one key of a family. -/
def upd {K α : Type} [DecidableEq K] (f : K → α) (k : K) (a : α) : K → α :=
  fun k' => if k' = k then a else f k'

@[simp] theorem upd_apply {K α : Type} [DecidableEq K] (f : K → α) (k k' : K) (a : α) :
    upd f k a k' = if k' = k then a else f k' := rfl

end EffectMq.Redis
