import Mathlib.Data.List.Sort
import Mathlib.Data.Prod.Lex
import EffectMq.JobStore
import EffectMq.Library.JsMap
import EffectMq.Library.Rounding

/-! # The Postgres driver: tables and statements

The tables of `drizzle-postgres/schema.ts` and the helpers of `DrizzleJobStore.ts` that retention and
stall recovery are made of. A statement either lands as a whole or raises an error, and an error rolls
the transaction back: a helper that can raise one returns `Except`.

Jobs are keyed by their primary key. The ledger rows of a job are listed by `job_id`, which carries
the foreign key: an insert needs the job's row, and deleting the row deletes them.
-/

namespace EffectMq.Drizzle
set_option autoImplicit false
set_option maxHeartbeats 250000

variable {V : Type}

/-! ## Tables -/

/-- A row of `effect_mq_jobs`. -/
structure JobRow (V : Type) extends JobRecord V where
  seq : ℕ
  lockToken : Option String
  lockExpiresAt : Option Millis
  deriving DecidableEq

structure DedupeRow where
  jobId : JobId
  windowExpiresAt : Option Millis
  deriving DecidableEq

/-- A row of `effect_mq_flow_children`. -/
structure FlowChildRow (V : Type) where
  flowId : JobId
  childKey : String
  storeKey : String
  spec : EnqueueRequest V
  status : ChildStatus
  exit : Option V
  failedReason : Option String
  cascaded : Bool
  pendingSince : Millis
  deriving DecidableEq

structure Tables (V : Type) where
  jobs : JsMap JobId (JobRow V)
  attempts : JobId → List (AttemptRecord V)
  dedupe : JsMap (String × String) DedupeRow
  flowChildren : JsMap (JobId × String) (FlowChildRow V)
  flowOutbox : List (OutboxEntry V)
  outboxSeq : ℕ

def Tables.empty : Tables V := ⟨∅, fun _ => [], ∅, ∅, [], 0⟩

inductive SqlError
  | foreignKeyViolation
  | invalidLimit
  | invalidTimestamp
  deriving DecidableEq, Repr

/-! ## Ledger, outbox and dedup rows -/

def insertAttempt (t : Tables V) (jobId : JobId) (outcome : AttemptOutcome)
    (startedAt : Option Millis) (finishedAt : Millis) (exit : Option V) :
    Except SqlError (Tables V) :=
  if t.jobs.has jobId then
    let attempt := ((t.attempts jobId).map (·.attempt)).foldl max 0 + 1
    .ok { t with
      attempts := fun id =>
        if id = jobId then
          t.attempts id ++ [{ attempt, startedAt, finishedAt, outcome, exit }]
        else t.attempts id }
  else .error .foreignKeyViolation

def appendOutbox (t : Tables V) (parent : Option ParentEnvelope) (outcome : TerminalState)
    (exit : Option V) (failedReason : Option String) : Tables V :=
  match parent with
  | none => t
  | some parent =>
    { t with
      outboxSeq := t.outboxSeq + 1
      flowOutbox := t.flowOutbox ++
        [{ id := t.outboxSeq + 1, flowName := parent.flowName,
           parentStoreKey := parent.parentStoreKey,
           report := { flowId := parent.flowId, childKey := parent.childKey, outcome, exit,
                       failedReason } }] }

theorem appendOutbox_frame (t : Tables V) (parent : Option ParentEnvelope) (outcome : TerminalState)
    (exit : Option V) (failedReason : Option String) :
    (appendOutbox t parent outcome exit failedReason).jobs = t.jobs ∧
    (appendOutbox t parent outcome exit failedReason).attempts = t.attempts ∧
    (appendOutbox t parent outcome exit failedReason).flowChildren = t.flowChildren := by
  unfold appendOutbox
  split <;> exact ⟨rfl, rfl, rfl⟩

/-- A pending-mode row, or a window that is over. -/
def DedupeRow.spent (row : DedupeRow) (now : Millis) : Bool :=
  match row.windowExpiresAt with
  | none => true
  | some t => decide (t ≤ now)

def releaseDedupe (t : Tables V) (name : String) (dedupeKey : Option String) (jobId : JobId)
    (now : Millis) : Tables V :=
  match dedupeKey with
  | none => t
  | some key =>
    match t.dedupe.get? (name, key) with
    | none => t
    | some row =>
      if row.jobId = jobId ∧ row.spent now then { t with dedupe := t.dedupe.delete (name, key) }
      else t

theorem releaseDedupe_frame (t : Tables V) (name : String) (dedupeKey : Option String)
    (jobId : JobId) (now : Millis) :
    (releaseDedupe t name dedupeKey jobId now).jobs = t.jobs ∧
    (releaseDedupe t name dedupeKey jobId now).attempts = t.attempts ∧
    (releaseDedupe t name dedupeKey jobId now).flowChildren = t.flowChildren ∧
    (releaseDedupe t name dedupeKey jobId now).flowOutbox = t.flowOutbox := by
  unfold releaseDedupe
  split
  · exact ⟨rfl, rfl, rfl, rfl⟩
  · split
    · exact ⟨rfl, rfl, rfl, rfl⟩
    · split <;> exact ⟨rfl, rfl, rfl, rfl⟩

/-! ## Retention -/

/-- Some dependency row of the flow is cancelled and not cascaded. -/
def owesCascades (t : Tables V) (id : JobId) : Bool :=
  t.flowChildren.values.any fun row =>
    decide (row.flowId = id) && decide (row.status = .cancelled) && !row.cascaded

/-- One statement: the predicate reads the tables as they were when it began. -/
def purgeJobsWhere (t : Tables V) (predicate : JobRow V → Bool) : Tables V :=
  { t with
    jobs := t.jobs.filter fun row => !predicate row
    attempts := fun id => if (t.jobs.get? id).any predicate then [] else t.attempts id
    flowChildren := t.flowChildren.filter fun row => !(t.jobs.get? row.flowId).any predicate }

/-- A number in a `jsonb` column: `JSON.stringify` writes `null` for what is not finite. -/
def storedNumber : JsNumber → Option ℚ
  | .finite q => some q
  | .posInf | .negInf | .nan => none

def keepPolicyFor (keep : KeepPolicy) (state : TerminalState) : Option KeepStatePolicy :=
  match keep.of state with
  | some policy => some policy
  | none =>
    if keep.completed = none ∧ keep.failed = none ∧ keep.cancelled = none then
      keep.flat.filter fun policy => policy.count.isSome || policy.ageMs.isSome
    else none

/-- The integer part, toward zero. -/
def cut (t : ℚ) : ℤ := if 0 ≤ t then ⌊t⌋ else ⌈t⌉

/-- `new Date(t)`: a time beyond 100 million days is invalid, a fraction is cut. -/
def newDate (t : ℚ) : Option ℤ := if |t| ≤ 8640000000000000 then some (cut t) else none

/-- A date as a `timestamptz` parameter. The type begins at Julian day 0. -/
def timestamptz (date : Option ℤ) : Except SqlError ℤ :=
  match date with
  | none => .error .invalidTimestamp
  | some ms => if -210866803200000 ≤ ms then .ok ms else .error .invalidTimestamp

/-- `new Date(now.getTime() - keep.ageMs)`, where a stored `null` counts as 0. -/
def keepCutoff (now : Millis) (age : JsNumber) : Option ℤ :=
  (newDate now).bind fun ms => newDate (ms - (storedNumber age).getD 0)

/-- `LIMIT $n`: `null` is no limit. A number is cast to `bigint`, which rounds it and fails where the
type has no such value; a negative limit is refused. -/
def limitOf (count : JsNumber) : Except SqlError (Option ℕ) :=
  match storedNumber count with
  | none => .ok none
  | some q =>
    let limit := Rounding.halfEven q
    if 0 ≤ limit ∧ limit < 2 ^ 63 then .ok (some limit.toNat) else .error .invalidLimit

def inGroup (name : String) (state : TerminalState) (row : JobRow V) : Bool :=
  decide (row.name = name) && decide (row.state = state.toJobState)

/-- The column as it sorts: a null comes last in ascending order. -/
def JobRow.finishedKey (row : JobRow V) : ℕ ×ₗ ℤ :=
  match row.finishedAt with
  | none => toLex (1, 0)
  | some t => toLex (0, t)

/-- `ORDER BY finished_at DESC, seq DESC`. -/
def newerFirst (a b : JobRow V) : Prop :=
  b.finishedKey < a.finishedKey ∨ b.finishedKey = a.finishedKey ∧ b.seq ≤ a.seq

instance : DecidableRel (@newerFirst V) := fun _ _ => inferInstanceAs (Decidable (_ ∨ _))

/-- The ids the subquery selects. -/
def keptIds (t : Tables V) (name : String) (state : TerminalState) (limit : Option ℕ) :
    List JobId :=
  let rows := (t.jobs.values.filter (inGroup name state)).insertionSort newerFirst
  (limit.elim rows rows.take).map (·.id)

/-- `finished_at <= cutoff`; a null is not. -/
def finishedBy (cutoff : ℤ) (row : JobRow V) : Bool :=
  row.finishedAt.any fun t => decide (t ≤ cutoff)

def purgeAged (t : Tables V) (name : String) (state : TerminalState) (cutoff : ℤ) : Tables V :=
  purgeJobsWhere t fun row =>
    inGroup name state row && finishedBy cutoff row && !owesCascades t row.id

def purgeBeyond (t : Tables V) (name : String) (state : TerminalState) (limit : Option ℕ) :
    Tables V :=
  purgeJobsWhere t fun row =>
    inGroup name state row && !decide (row.id ∈ keptIds t name state limit) &&
      !owesCascades t row.id

def applyAge (t : Tables V) (name : String) (state : TerminalState) (policy : KeepStatePolicy)
    (now : Millis) : Except SqlError (Tables V) :=
  match policy.ageMs with
  | none => .ok t
  | some age => (timestamptz (keepCutoff now age)).map (purgeAged t name state)

def applyCount (t : Tables V) (name : String) (state : TerminalState) (policy : KeepStatePolicy) :
    Except SqlError (Tables V) :=
  match policy.count with
  | none => .ok t
  | some count => (limitOf count).map (purgeBeyond t name state)

/-- One statement for the age, then one for the count. -/
def applyKeep (t : Tables V) (name : String) (state : TerminalState) (keep : Option KeepPolicy)
    (now : Millis) : Except SqlError (Tables V) :=
  match keep.bind (keepPolicyFor · state) with
  | none => .ok t
  | some policy =>
    (applyAge t name state policy now).bind fun t => applyCount t name state policy

/-! ## Stall recovery -/

structure Recovered where
  id : JobId
  failed : Bool
  deriving DecidableEq

def stalledReason : String := "job stalled more than allowable limit"

def expired (now : Millis) (row : JobRow V) : Bool :=
  decide (row.state = .active) && row.lockExpiresAt.any fun t => decide (t ≤ now)

/-- The assignments of the `UPDATE`. -/
def recoverRow (maxStalledCount : ℤ) (now : Millis) (row : JobRow V) : JobRow V :=
  let exhausted : Bool := decide (maxStalledCount < (row.stalledCount + 1 : ℕ))
  { row with
    stalledCount := if row.cancelRequested then row.stalledCount else row.stalledCount + 1
    lockToken := none
    lockExpiresAt := none
    state := if row.cancelRequested then .cancelled else if exhausted then .failed else .waiting
    finishedAt := if row.cancelRequested || exhausted then some now else none
    failedReason :=
      if row.cancelRequested then none else if exhausted then some stalledReason else none
    cancelRequested := false }

/-- One `UPDATE` flips every expired row. -/
def flipExpired (t : Tables V) (maxStalledCount : ℤ) (now : Millis) : Tables V :=
  { t with
    jobs := t.jobs.mapValues fun _ row =>
      if expired now row then recoverRow maxStalledCount now row else row }

/-- A recovery that ended the job reports upward and frees its dedup entry. -/
def endRecovered (t : Tables V) (row : JobRow V) (now : Millis) : Tables V :=
  if row.state = .cancelled ∨ row.state = .failed then
    let t := appendOutbox t row.parent (if row.state = .cancelled then .cancelled else .failed)
      row.exit row.failedReason
    releaseDedupe t row.name row.dedupeKey row.id now
  else t

/-- The loop body, on a row as the `UPDATE` returned it. -/
def settleRecovered (now : Millis) (acc : List Recovered × Tables V) (row : JobRow V) :
    Except SqlError (List Recovered × Tables V) :=
  let (recovered, t) := acc
  (insertAttempt t row.id (if row.state = .cancelled then .cancelled else .stalled)
    row.processedAt now none).bind fun t =>
      let t := endRecovered t row now
      if row.state = .cancelled then
        (applyKeep t row.name .cancelled row.keep now).map fun t => (recovered, t)
      else .ok (recovered ++ [⟨row.id, decide (row.state = .failed)⟩], t)

/-- `returned` lists the ids of the rows the `UPDATE` returns, in its order. -/
def recoverStalled (t : Tables V) (returned : List JobId) (maxStalledCount : ℤ) (now : Millis) :
    Except SqlError (List Recovered × Tables V) :=
  let t := flipExpired t maxStalledCount now
  (returned.filterMap t.jobs.get?).foldlM (settleRecovered now) ([], t)

end EffectMq.Drizzle
