import Mathlib.Data.Rat.Floor
import EffectMq.RedisJobStore.Keyspace

/-! # The Redis driver: the job scripts

The shared helpers of `redis/scripts.ts` and the scripts of the job lifecycle, each a function of the
keyspace. A script is atomic but not transactional: one that stops with an error keeps what it wrote,
so a script that can stop returns `Except.error` with the keyspace it leaves. The replies are the
results and typed errors that `RedisJobStore.ts` makes of them.
-/

namespace EffectMq.Redis
set_option autoImplicit false
set_option maxHeartbeats 250000

variable {V : Type}

/-! ## Helpers -/

/-- `string.format("%016.0f", seq) .. ":" .. id`. -/
def pad16 (seq : ℕ) : String :=
  String.ofList (List.replicate (16 - (Nat.repr seq).length) '0') ++ Nat.repr seq

def waitingMember (seq : ℕ) (id : JobId) : String := pad16 seq ++ ":" ++ id

def waitingId (member : String) : JobId := String.ofList (member.toList.drop 17)

def countsAdd (ks : Keyspace V) (queue : QueueName) (state : JobState) (n : ℤ) : Keyspace V :=
  { ks with counts := upd ks.counts queue (upd (ks.counts queue) state (ks.counts queue state + n)) }

/-- A job changes its state: its two counters move. -/
def countsMove (ks : Keyspace V) (queue : QueueName) (state state' : JobState) : Keyspace V :=
  countsAdd (countsAdd ks queue state (-1)) queue state' 1

/-- `HSET` on the hash of a job that is there. -/
def hset (ks : Keyspace V) (id : JobId) (f : JobHash V → JobHash V) : Keyspace V :=
  { ks with jobs := ks.jobs.modify id f }

def addWaiting (ks : Keyspace V) (queue : QueueName) (priority : ℤ) (seq : ℕ) (id : JobId) :
    Keyspace V :=
  { ks with waiting := upd ks.waiting queue ((ks.waiting queue).add (waitingMember seq id) (-priority)) }

def remWaiting (ks : Keyspace V) (queue : QueueName) (id : JobId) : Keyspace V :=
  let seq := ((ks.jobs.get? id).map (·.seq)).getD 0
  { ks with waiting := upd ks.waiting queue ((ks.waiting queue).rem (waitingMember seq id)) }

def addDelayed (ks : Keyspace V) (queue : QueueName) (runAt : ℤ) (id : JobId) : Keyspace V :=
  { ks with delayed := upd ks.delayed queue ((ks.delayed queue).add id runAt) }

def remDelayed (ks : Keyspace V) (queue : QueueName) (id : JobId) : Keyspace V :=
  { ks with delayed := upd ks.delayed queue ((ks.delayed queue).rem id) }

def addActive (ks : Keyspace V) (expiresAt : ℤ) (id : JobId) : Keyspace V :=
  { ks with active := ks.active.add id expiresAt }

def remActive (ks : Keyspace V) (id : JobId) : Keyspace V :=
  { ks with active := ks.active.rem id }

/-- `ZADD` into `p:finished:<state>` and `p:terminal:<name>:<state>`. -/
def addTerminal (ks : Keyspace V) (name : String) (state : JobState) (now : ℤ) (id : JobId) :
    Keyspace V :=
  { ks with
    finished := upd ks.finished state ((ks.finished state).add id now)
    terminal := upd ks.terminal name
      (upd (ks.terminal name) state ((ks.terminal name state).add id now)) }

def remTerminal (ks : Keyspace V) (name : String) (state : JobState) (id : JobId) : Keyspace V :=
  { ks with
    finished := upd ks.finished state ((ks.finished state).rem id)
    terminal := upd ks.terminal name
      (upd (ks.terminal name) state ((ks.terminal name state).rem id)) }

def appendAttempt (ks : Keyspace V) (id : JobId) (outcome : AttemptOutcome) (startedAt : Option ℤ)
    (finishedAt : ℤ) (exit : Option V) : Keyspace V :=
  { ks with
    attempts := upd ks.attempts id (ks.attempts id ++
      [{ attempt := (ks.attempts id).length + 1, startedAt, finishedAt, outcome, exit }]) }

/-- Hash fields keep `""` for an absent text. -/
def optionalString (text : String) : Option String := if text = "" then none else some text

/-- The report is built from the hash, after the terminal fields are written. -/
def appendOutbox (ks : Keyspace V) (id : JobId) (outcome : TerminalState) : Keyspace V :=
  match ks.jobs.get? id with
  | none => ks
  | some job =>
    match job.parent with
    | none => ks
    | some parent =>
      { ks with
        outboxSeq := ks.outboxSeq + 1
        outbox := ks.outbox ++
          [{ id := ks.outboxSeq + 1, flowName := parent.flowName,
             parentStoreKey := parent.parentStoreKey,
             report := { flowId := parent.flowId, childKey := parent.childKey, outcome,
                         exit := job.exit, failedReason := optionalString job.failedReason } }] }

def flowMember (flowId : JobId) (childKey : String) : FlowMember := toLex (flowId, childKey)

/-- One remaining pending row: its cancel moves from the pending to the cascade sweep. -/
def markRowCancelled (flowId : JobId) (acc : Keyspace V × ℕ) (childKey : String) :
    Keyspace V × ℕ :=
  let (ks, marked) := acc
  match ks.flowRows.get? (flowId, childKey) with
  | none => acc
  | some row =>
    if row.status = .pending then
      ({ ks with
          flowRows := ks.flowRows.set (flowId, childKey)
            { row with status := .cancelled, cascaded := false }
          flowPending := ks.flowPending.rem (flowMember flowId childKey)
          flowCascade := ks.flowCascade.add (flowMember flowId childKey) 0 }, marked + 1)
    else acc

/-- Returns how many rows flipped. -/
def markPendingRowsCancelled (ks : Keyspace V) (flowId : JobId) : Keyspace V × ℕ :=
  (ks.flowIndex flowId).members.foldl (markRowCancelled flowId) (ks, 0)

def settleMarkRows (ks : Keyspace V) (flowId : JobId) : Keyspace V :=
  let (ks, marked) := markPendingRowsCancelled ks flowId
  hset ks flowId fun job =>
    { job with
      flow := job.flow.map fun flow => { flow with pending := 0, cancelled := flow.cancelled + marked } }

/-- Automatic retention spares a parent whose rows still owe cascade cancels. -/
def owesCascades (ks : Keyspace V) (id : JobId) : Bool :=
  (ks.flowIndex id).members.any fun childKey =>
    match ks.flowRows.get? (id, childKey) with
    | none => false
    | some row => decide (row.status = .cancelled) && !row.cascaded

def dropRow (flowId : JobId) (ks : Keyspace V) (childKey : String) : Keyspace V :=
  { ks with
    flowRows := ks.flowRows.delete (flowId, childKey)
    flowPending := ks.flowPending.rem (flowMember flowId childKey)
    flowCascade := ks.flowCascade.rem (flowMember flowId childKey) }

/-- The rows of a flow, their sweep-index members and the member index. -/
def dropRows (ks : Keyspace V) (flowId : JobId) : Keyspace V :=
  let ks := (ks.flowIndex flowId).members.foldl (dropRow flowId) ks
  { ks with flowIndex := upd ks.flowIndex flowId ∅ }

/-- Remove a job and every index entry that references it. -/
def deleteJob (ks : Keyspace V) (id : JobId) : Keyspace V :=
  match ks.jobs.get? id with
  | none => ks
  | some job =>
    let ks := countsAdd ks job.queue job.state (-1)
    let ks := { ks with
      all := ks.all.rem id
      byname := upd ks.byname job.name ((ks.byname job.name).rem id)
      byqueue := upd ks.byqueue job.queue ((ks.byqueue job.queue).rem id) }
    let ks := remTerminal ks job.name job.state id
    let ks := remActive ks id
    let ks := remWaiting ks job.queue id
    let ks := remDelayed ks job.queue id
    let ks := dropRows ks id
    { ks with jobs := ks.jobs.delete id, attempts := upd ks.attempts id [] }

/-! ## Retention -/

/-- `cjson.decode` of a number that `JSON.stringify` wrote; `none` is `null`. -/
def decodedNumber : JsNumber → Option ℚ
  | .finite q => some q
  | .posInf | .negInf | .nan => none

def keepPolicyFor (keep : KeepPolicy) (state : TerminalState) : Option KeepStatePolicy :=
  match keep.of state with
  | some policy => some policy
  | none =>
    if keep.completed = none ∧ keep.failed = none ∧ keep.cancelled = none then
      keep.flat.filter fun policy => policy.count.isSome || policy.ageMs.isSome
    else none

structure KeepEntry where
  id : JobId
  finishedAt : ℤ
  seq : ℕ

/-- Newest first. -/
def KeepEntry.newerFirst (a b : KeepEntry) : Prop :=
  b.finishedAt < a.finishedAt ∨ b.finishedAt = a.finishedAt ∧ b.seq ≤ a.seq

instance : DecidableRel KeepEntry.newerFirst := fun _ _ => inferInstanceAs (Decidable (_ ∨ _))

def deleteUnowed (ks : Keyspace V) (ids : List JobId) : Keyspace V :=
  ids.foldl (fun ks id => if owesCascades ks id then ks else deleteJob ks id) ks

/-- The age rule. -/
def dropAged (ks : Keyspace V) (name : String) (state : JobState) (cutoff : ℚ) : Keyspace V :=
  deleteUnowed ks ((ks.terminal name state).range fun t => decide ((t : ℚ) ≤ cutoff))

/-- A missing or undecodable count reads as 0. -/
def keepCount (count : JsNumber) : ℕ := ⌊max 0 ((decodedNumber count).getD 0)⌋.toNat

/-- The count rule: the group is sorted, as a score alone cannot carry the `seq` tie-break. -/
def dropBeyond (ks : Keyspace V) (name : String) (state : JobState) (count : ℕ) : Keyspace V :=
  let entries := ((ks.terminal name state).withScores.map fun member =>
    { id := member.1, finishedAt := member.2,
      seq := ((ks.jobs.get? member.1).map (·.seq)).getD 0 : KeepEntry })
  deleteUnowed ks (((entries.insertionSort KeepEntry.newerFirst).drop count).map (·.id))

/-- Arithmetic on a `null` age stops the script. -/
def applyAge (ks : Keyspace V) (name : String) (state : JobState) (policy : KeepStatePolicy)
    (now : ℤ) : Except (Keyspace V) (Keyspace V) :=
  match policy.ageMs with
  | none => .ok ks
  | some age =>
    match decodedNumber age with
    | none => .error ks
    | some age => .ok (dropAged ks name state (now - age))

def applyCount (ks : Keyspace V) (name : String) (state : JobState) (policy : KeepStatePolicy) :
    Keyspace V :=
  match policy.count with
  | none => ks
  | some count => dropBeyond ks name state (keepCount count)

/-- Terminal retention for one name and state. -/
def applyKeep (ks : Keyspace V) (name : String) (state : TerminalState) (keep : Option KeepPolicy)
    (now : ℤ) : Except (Keyspace V) (Keyspace V) :=
  match keep.bind (keepPolicyFor · state) with
  | none => .ok ks
  | some policy =>
    (applyAge ks name state.toJobState policy now).map fun ks =>
      applyCount ks name state.toJobState policy

/-! ## Deduplication -/

def dedupeStoreKey (name key : String) : String := name ++ "\u0000" ++ key

/-- A pending-mode entry, or a window that is over. -/
def DedupeHash.spent (entry : DedupeHash) (now : ℤ) : Bool :=
  match entry.expiresAt with
  | none => true
  | some t => decide (t ≤ now)

def releaseDedupe (ks : Keyspace V) (name dedupeKey : String) (jobId : JobId) (now : ℤ) :
    Keyspace V :=
  if dedupeKey = "" then ks
  else
    let key := dedupeStoreKey name dedupeKey
    match ks.dedupes.get? key with
    | none => ks
    | some entry =>
      if entry.jobId = jobId ∧ entry.spent now then
        { ks with dedupes := ks.dedupes.delete key, dedupeIndex := ks.dedupeIndex.rem key }
      else ks

/-- What every terminal transition with retention ends with. -/
def conclude (ks : Keyspace V) (id : JobId) (name : String) (state : TerminalState)
    (outcome : AttemptOutcome) (startedAt : Option ℤ) (exit : Option V) (now : ℤ) :
    Except (Keyspace V) (Keyspace V) :=
  let ks := appendAttempt ks id outcome startedAt now exit
  let ks := appendOutbox ks id state
  let job := ks.jobs.get? id
  let ks := releaseDedupe ks name ((job.map (·.dedupeKey)).getD "") id now
  applyKeep ks name state (job.bind (·.keep)) now

/-- An active job, out of the lock index already, becomes cancelled. -/
def finishCancelled (ks : Keyspace V) (id : JobId) (queue : QueueName) (name : String)
    (startedAt : Option ℤ) (now : ℤ) : Except (Keyspace V) (Keyspace V) :=
  let ks := hset ks id fun job =>
    { job with
      state := .cancelled, finishedAt := some now, cancelRequested := false, lockToken := "",
      lockExpiresAt := none }
  let ks := countsMove ks queue .active .cancelled
  let ks := addTerminal ks name .cancelled now id
  conclude ks id name .cancelled .cancelled startedAt none now

/-! ## Inserting -/

def jobHash (id : JobId) (request : EnqueueRequest V) (dedupeKey : String) (now : ℤ) (seq : ℕ) :
    JobHash V where
  id := id
  name := request.name
  queue := request.queue
  payload := request.payload
  metadata := request.metadata
  state := if 0 < max 0 request.delayMs then .delayed else .waiting
  priority := request.priority
  attemptsMax := request.attemptsMax
  attemptsMade := 0
  stalledCount := 0
  backoff := request.backoff
  keep := request.keep
  timeoutMs := request.timeoutMs
  cancelRequested := false
  dedupeKey := dedupeKey
  trace := request.trace
  parent := request.parent
  flow := none
  runAt := now + max 0 request.delayMs
  enqueuedAt := now
  processedAt := none
  finishedAt := none
  exit := none
  failedReason := ""
  lockToken := ""
  lockExpiresAt := none
  seq := seq

/-- `ZADD` into `p:all` and the list indexes this store maintains. -/
def addListed (indexes : IndexConfig) (ks : Keyspace V) (name : String) (queue : QueueName) (now : ℤ)
    (id : JobId) : Keyspace V :=
  { ks with
    all := ks.all.add id now
    byname := if indexes.name then upd ks.byname name ((ks.byname name).add id now) else ks.byname
    byqueue :=
      if indexes.queue then upd ks.byqueue queue ((ks.byqueue queue).add id now) else ks.byqueue }

/-- A fresh row and every index entry. -/
def insertJobRow (indexes : IndexConfig) (ks : Keyspace V) (id : JobId) (request : EnqueueRequest V)
    (dedupeKey : String) (now : ℤ) : Keyspace V :=
  let ks := { ks with seq := ks.seq + 1 }
  let job := jobHash id request dedupeKey now ks.seq
  let ks := { ks with jobs := ks.jobs.set id job }
  let ks := addListed indexes ks job.name job.queue now id
  let ks :=
    if job.state = .waiting then addWaiting ks job.queue job.priority ks.seq id
    else addDelayed ks job.queue job.runAt id
  countsAdd ks job.queue job.state 1

/-! ## Enqueue -/

/-- Who chose the id: the caller (an existing job is a duplicate), a generator (a collision is
retried) or the script. -/
inductive IdMode
  | user | generated | auto
  deriving DecidableEq

inductive EnqueueReply
  | enqueued (id : JobId) (duplicate : Bool)
  | collision
  | noId
  deriving DecidableEq

/-- `j-<seq>`, in so many tries. -/
def autoId : ℕ → Keyspace V → Option JobId × Keyspace V
  | 0, ks => (none, ks)
  | tries + 1, ks =>
    let ks := { ks with seq := ks.seq + 1 }
    let candidate := "j-" ++ Nat.repr ks.seq
    if ks.jobs.has candidate then autoId tries ks else (some candidate, ks)

def resolveId (ks : Keyspace V) (mode : IdMode) (id : JobId) : Option JobId × Keyspace V :=
  match mode with
  | .auto => autoId 5 ks
  | .user | .generated => (some id, ks)

def DedupeHash.live (entry : DedupeHash) (now : ℤ) : Bool :=
  match entry.expiresAt with
  | none => false
  | some t => decide (now < t)

def setWindow (ks : Keyspace V) (key : String) (now : ℤ) (ttlMs : Option (WithTop ℤ)) : Keyspace V :=
  match ttlMs with
  | none => ks
  | some ttl =>
    { ks with
      dedupes := ks.dedupes.modify key fun entry => { entry with expiresAt := some (now + ttl) }
      dedupeIndex := ks.dedupeIndex.add key (now + ttl) }

/-- Latest-wins: the hash fields a replace rewrites. -/
def replaceHash (job : JobHash V) (request : EnqueueRequest V) (now : ℤ) : JobHash V :=
  { job with
    payload := request.payload, metadata := request.metadata, priority := request.priority,
    attemptsMax := request.attemptsMax, backoff := request.backoff, keep := request.keep,
    timeoutMs := request.timeoutMs, trace := request.trace, runAt := now + max 0 request.delayMs }

/-- The dedup decision tree; `none` lets the new job take over the key. -/
def dedupeDecision (ks : Keyspace V) (now : ℤ) (request : EnqueueRequest V) (dedupe : DedupePolicy) :
    Option (EnqueueReply × Keyspace V) :=
  let key := dedupeStoreKey request.name dedupe.key
  match ks.dedupes.get? key with
  | none => none
  | some entry =>
    let keyed := ks.jobs.get? entry.jobId
    match keyed.filter fun job => dedupe.replace && decide (job.state = .delayed) with
    | some job =>
      let ks := hset ks entry.jobId fun job => replaceHash job request now
      let ks := addDelayed ks job.queue (now + max 0 request.delayMs) entry.jobId
      some (.enqueued entry.jobId true, setWindow ks key now dedupe.ttlMs)
    | none =>
      if entry.live now then
        some (.enqueued entry.jobId true,
          if dedupe.extend then setWindow ks key now dedupe.ttlMs else ks)
      else if entry.expiresAt = none ∧ keyed.any fun job => !job.state.isTerminal then
        some (.enqueued entry.jobId true, ks)
      else none

/-- The key and policy a request deduplicates by: an empty key is no key. -/
def dedupeOf (request : EnqueueRequest V) : Option DedupePolicy :=
  request.dedupe.filter fun dedupe => decide (dedupe.key ≠ "")

def registerDedupe (ks : Keyspace V) (now : ℤ) (name : String) (dedupe : DedupePolicy) (id : JobId) :
    Keyspace V :=
  let key := dedupeStoreKey name dedupe.key
  let expiresAt : Option (WithTop ℤ) := dedupe.ttlMs.map fun ttl => now + ttl
  { ks with
    dedupes := ks.dedupes.set key { jobId := id, expiresAt }
    dedupeIndex := ks.dedupeIndex.add key (expiresAt.getD ⊤) }

def enqueue (indexes : IndexConfig) (ks : Keyspace V) (mode : IdMode) (id : JobId)
    (request : EnqueueRequest V) (now : ℤ) : EnqueueReply × Keyspace V :=
  if mode ≠ .auto ∧ ks.jobs.has id then
    (if mode = .user then .enqueued id true else .collision, ks)
  else
    match (dedupeOf request).bind (dedupeDecision ks now request) with
    | some answer => answer
    | none =>
      match resolveId ks mode id with
      | (none, ks) => (.noId, ks)
      | (some id, ks) =>
        let ks := insertJobRow indexes ks id request (((dedupeOf request).map (·.key)).getD "") now
        let ks := match dedupeOf request with
          | none => ks
          | some dedupe => registerDedupe ks now request.name dedupe id
        (.enqueued id false, ks)

/-- One item of a batch. -/
structure BatchItem (V : Type) where
  mode : IdMode
  id : JobId
  request : EnqueueRequest V

def enqueueItem (indexes : IndexConfig) (now : ℤ) (acc : List EnqueueReply × Keyspace V)
    (item : BatchItem V) : List EnqueueReply × Keyspace V :=
  let (replies, ks) := acc
  if item.mode ≠ .auto ∧ ks.jobs.has item.id then
    (replies ++ [if item.mode = .user then .enqueued item.id true else .collision], ks)
  else
    match resolveId ks item.mode item.id with
    | (none, ks) => (replies ++ [.noId], ks)
    | (some id, ks) =>
      -- The check for an id that was not found stands outside the branch that looks for one.
      if id = "" then (replies ++ [.noId], ks)
      else (replies ++ [.enqueued id false], insertJobRow indexes ks id item.request "" now)

/-- Plain items only; the driver routes dedup items through `enqueue`. -/
def enqueueMany (indexes : IndexConfig) (ks : Keyspace V) (now : ℤ) (items : List (BatchItem V)) :
    List EnqueueReply × Keyspace V :=
  items.foldl (enqueueItem indexes now) ([], ks)

/-! ## Claim -/

/-- `cjson.encode` writes 14 significant digits, and the driver parses what it wrote. -/
def cjsonNumber (n : ℤ) : ℤ :=
  let digits := (Nat.repr n.natAbs).length
  if digits ≤ 14 then n
  else
    let unit := 10 ^ (digits - 14)
    let kept := n.natAbs / unit
    let rest := n.natAbs % unit
    let kept := if 2 * rest < unit ∨ 2 * rest = unit ∧ kept % 2 = 0 then kept else kept + 1
    n.sign * (kept * unit : ℕ)

structure ClaimOptions where
  queue : QueueName
  names : List String
  token : String
  lockDurationMs : ℤ
  deriving DecidableEq

inductive ClaimReply (V : Type)
  | claimed (job : JobHash V)
  | empty (nextRunAt : Option ℤ)

/-- A due delayed job becomes waiting. -/
def promoteOne (queue : QueueName) (ks : Keyspace V) (id : JobId) : Keyspace V :=
  let ks := remDelayed ks queue id
  let job := ks.jobs.get? id
  let priority := (job.map (·.priority)).getD 0
  let seq := (job.map (·.seq)).getD 0
  let ks := hset ks id fun job => { job with state := .waiting }
  let ks := addWaiting ks queue priority seq id
  countsMove ks queue .delayed .waiting

def promoteDue (ks : Keyspace V) (queue : QueueName) (now : ℤ) : Keyspace V :=
  ((ks.delayed queue).range fun t => decide (t ≤ now)).foldl (promoteOne queue) ks

/-- Whether the job's name is among the claimer's. -/
def wanted (ks : Keyspace V) (names : List String) (id : JobId) : Bool :=
  (ks.jobs.get? id).any fun job => decide (job.name ∈ names)

def claimHash (job : JobHash V) (options : ClaimOptions) (now : ℤ) : JobHash V :=
  { job with
    state := .active, lockToken := options.token,
    lockExpiresAt := some (now + options.lockDurationMs), processedAt := some now }

/-- The waiting set is read in batches of 100, in one script. -/
def claim (ks : Keyspace V) (options : ClaimOptions) (now : ℤ) : ClaimReply V × Keyspace V :=
  let queue := options.queue
  let ks := promoteDue ks queue now
  let nextRunAt := ((ks.delayed queue).withScores.find? fun member =>
    wanted ks options.names member.1).map (·.2)
  if queue ∈ ks.paused then (.empty (nextRunAt.map cjsonNumber), ks)
  else
    match (ks.waiting queue).members.find? fun member =>
        wanted ks options.names (waitingId member) with
    | none => (.empty (nextRunAt.map cjsonNumber), ks)
    | some member =>
      let id := waitingId member
      match ks.jobs.get? id with
      | none => (.empty (nextRunAt.map cjsonNumber), ks)
      | some job =>
        let ks := { ks with
          waiting := upd ks.waiting queue ((ks.waiting queue).rem member) }
        let ks := hset ks id fun job => claimHash job options now
        let ks := addActive ks (now + options.lockDurationMs) id
        (.claimed (claimHash job options now), countsMove ks queue .waiting .active)

/-! ## Ack and locks -/

/-- The outcomes of the `ack` script; a fan-out has its own. -/
inductive Settled (V : Type)
  | complete (exit : Option V)
  | retry (delayMs : ℤ) (exit : Option V)
  | fail (exit : Option V)
  | cancelled
  deriving DecidableEq

/-- `storeExit` is `none` when the stored exit is left alone. -/
def finish (ks : Keyspace V) (id : JobId) (job : JobHash V) (state : TerminalState)
    (storeExit : Option (Option V)) (outcome : AttemptOutcome) (ledgerExit : Option V) (now : ℤ) :
    Except (Keyspace V) (Keyspace V) :=
  let ks := hset ks id fun job =>
    { job with
      state := state.toJobState, finishedAt := some now, cancelRequested := false, lockToken := "",
      lockExpiresAt := none, exit := storeExit.getD job.exit }
  let ks := countsMove ks job.queue .active state.toJobState
  let ks := addTerminal ks job.name state.toJobState now id
  conclude ks id job.name state outcome job.processedAt ledgerExit now

/-- The job goes back to the queue, at the back of its priority. -/
def requeue (ks : Keyspace V) (id : JobId) (job : JobHash V) (delayMs : ℤ) (exit : Option V)
    (now : ℤ) : Keyspace V :=
  let ks := appendAttempt ks id .retried job.processedAt now exit
  let ks := { ks with seq := ks.seq + 1 }
  let seq := ks.seq
  let delay := max 0 delayMs
  let state : JobState := if 0 < delay then .delayed else .waiting
  let ks := hset ks id fun job =>
    { job with state, seq, runAt := now + delay, lockToken := "", lockExpiresAt := none }
  let ks := countsMove ks job.queue .active state
  if state = .waiting then addWaiting ks job.queue job.priority seq id
  else addDelayed ks job.queue (now + delay) id

def ack (ks : Keyspace V) (id : JobId) (token : String) (outcome : Settled V) (now : ℤ) :
    Except (Keyspace V) (Except StoreError Unit × Keyspace V) :=
  match ks.jobs.get? id with
  | none => .ok (.error (.jobNotFound id), ks)
  | some job =>
    if job.state ≠ .active ∨ job.lockToken ≠ token then .ok (.error (.lockLost id), ks)
    else
      let ks := hset ks id fun job => { job with attemptsMade := job.attemptsMade + 1 }
      let ks := remActive ks id
      (match outcome with
      | .complete exit => finish ks id job .completed (some exit) .completed exit now
      | .fail exit => finish ks id job .failed (some exit) .failed exit now
      | .cancelled => finish ks id job .cancelled none .cancelled none now
      | .retry delayMs exit =>
        if job.cancelRequested then finish ks id job .cancelled none .cancelled none now
        else .ok (requeue ks id job delayMs exit now)).map fun ks => (.ok (), ks)

def release (ks : Keyspace V) (id : JobId) (token : String) (now : ℤ) :
    Except (Keyspace V) (Except StoreError Unit × Keyspace V) :=
  match ks.jobs.get? id with
  | none => .ok (.error (.jobNotFound id), ks)
  | some job =>
    if job.state ≠ .active ∨ job.lockToken ≠ token then .ok (.error (.lockLost id), ks)
    else
      let ks := remActive ks id
      if job.cancelRequested then
        (finishCancelled ks id job.queue job.name job.processedAt now).map fun ks => (.ok (), ks)
      else
        let ks := hset ks id fun job =>
          { job with state := .waiting, lockToken := "", lockExpiresAt := none }
        let ks := addWaiting ks job.queue job.priority job.seq id
        .ok (.ok (), countsMove ks job.queue .active .waiting)

structure Lock where
  id : JobId
  token : String
  deriving DecidableEq

structure ExtendReply where
  lost : List JobId
  cancel : List JobId
  deriving DecidableEq

def extendLock (now durationMs : ℤ) (acc : ExtendReply × Keyspace V) (lock : Lock) :
    ExtendReply × Keyspace V :=
  let (reply, ks) := acc
  match ks.jobs.get? lock.id with
  | none => ({ reply with lost := reply.lost ++ [lock.id] }, ks)
  | some job =>
    if job.state ≠ .active ∨ job.lockToken ≠ lock.token then
      ({ reply with lost := reply.lost ++ [lock.id] }, ks)
    else if job.cancelRequested then ({ reply with cancel := reply.cancel ++ [lock.id] }, ks)
    else
      let ks := hset ks lock.id fun job => { job with lockExpiresAt := some (now + durationMs) }
      (reply, addActive ks (now + durationMs) lock.id)

def extendLocks (ks : Keyspace V) (locks : List Lock) (durationMs now : ℤ) :
    ExtendReply × Keyspace V :=
  locks.foldl (extendLock now durationMs) (⟨[], []⟩, ks)

structure Recovered where
  id : JobId
  failed : Bool
  deriving DecidableEq

def stalledReason : String := "job stalled more than allowable limit"

def recoverJob (now maxStalledCount : ℤ) (acc : List Recovered × Keyspace V) (id : JobId) :
    Except (Keyspace V) (List Recovered × Keyspace V) :=
  let (recovered, ks) := acc
  match ks.jobs.get? id with
  | none => .ok acc
  | some job =>
    if job.state ≠ .active then .ok acc
    else
      let ks := remActive ks id
      if job.cancelRequested then
        (finishCancelled ks id job.queue job.name job.processedAt now).map fun ks => (recovered, ks)
      else
        let stalled := job.stalledCount + 1
        let ks := hset ks id fun job =>
          { job with stalledCount := stalled, lockToken := "", lockExpiresAt := none }
        let ks := appendAttempt ks id .stalled job.processedAt now none
        if maxStalledCount < (stalled : ℤ) then
          let ks := hset ks id fun job =>
            { job with
              state := .failed, finishedAt := some now, failedReason := stalledReason }
          let ks := countsMove ks job.queue .active .failed
          let ks := addTerminal ks job.name .failed now id
          let ks := appendOutbox ks id .failed
          .ok (recovered ++ [⟨id, true⟩], releaseDedupe ks job.name job.dedupeKey id now)
        else
          let ks := hset ks id fun job => { job with state := .waiting }
          let ks := addWaiting ks job.queue job.priority job.seq id
          .ok (recovered ++ [⟨id, false⟩], countsMove ks job.queue .active .waiting)

def recoverStalled (ks : Keyspace V) (maxStalledCount now : ℤ) :
    Except (Keyspace V) (List Recovered × Keyspace V) :=
  (ks.active.range fun t => decide (t ≤ now)).foldlM (recoverJob now maxStalledCount) ([], ks)

/-! ## Maintenance verbs -/

/-- Refuses a job that is active or waiting for its children. -/
def remove (ks : Keyspace V) (id : JobId) : Bool × Keyspace V :=
  match ks.jobs.get? id with
  | none => (false, ks)
  | some job =>
    if job.state = .active ∨ job.state = .waitingChildren then (false, ks)
    else (true, deleteJob ks id)

def retryHash (job : JobHash V) (now : ℤ) (seq : ℕ) : JobHash V :=
  { job with
    state := .waiting, attemptsMade := 0, stalledCount := 0, cancelRequested := false, exit := none,
    failedReason := "", finishedAt := none, processedAt := none, runAt := now, seq := seq }

def retry (ks : Keyspace V) (id : JobId) (now : ℤ) : Except StoreError Unit × Keyspace V :=
  match ks.jobs.get? id with
  | none => (.error (.jobNotFound id), ks)
  | some job =>
    if job.state ≠ .failed then (.error (.jobNotRetryable id job.state), ks)
    else
      let ks := { ks with seq := ks.seq + 1 }
      let seq := ks.seq
      let ks := hset ks id fun job => retryHash job now seq
      let ks := remTerminal ks job.name .failed id
      let ks := addWaiting ks job.queue job.priority seq id
      (.ok (), countsMove ks job.queue .failed .waiting)

def cancel (ks : Keyspace V) (id : JobId) (now : ℤ) :
    Except (Keyspace V) (Except StoreError Unit × Keyspace V) :=
  match ks.jobs.get? id with
  | none => .ok (.error (.jobNotFound id), ks)
  | some job =>
    match job.state with
    | .active => .ok (.ok (), hset ks id fun job => { job with cancelRequested := true })
    | .waiting | .delayed | .waitingChildren =>
      let ks := if job.state = .waitingChildren then settleMarkRows ks id else ks
      let ks := remWaiting ks job.queue id
      let ks := remDelayed ks job.queue id
      let ks := hset ks id fun job =>
        { job with state := .cancelled, finishedAt := some now, cancelRequested := false }
      let ks := countsMove ks job.queue job.state .cancelled
      let ks := addTerminal ks job.name .cancelled now id
      (conclude ks id job.name .cancelled .cancelled job.processedAt none now).map
        fun ks => (.ok (), ks)
    | state => .ok (.error (.jobNotCancellable id state), ks)

def promote (ks : Keyspace V) (id : JobId) (now : ℤ) : Except StoreError Unit × Keyspace V :=
  match ks.jobs.get? id with
  | none => (.error (.jobNotFound id), ks)
  | some job =>
    if job.state ≠ .delayed then (.error (.jobNotPromotable id job.state), ks)
    else
      let ks := remDelayed ks job.queue id
      let ks := hset ks id fun job => { job with state := .waiting, runAt := now }
      let ks := addWaiting ks job.queue job.priority job.seq id
      (.ok (), countsMove ks job.queue .delayed .waiting)

/-- `SADD` and `SREM` on `p:paused`. -/
def pause (ks : Keyspace V) (queue : QueueName) : Keyspace V :=
  if queue ∈ ks.paused then ks else { ks with paused := ks.paused ++ [queue] }

def resume (ks : Keyspace V) (queue : QueueName) : Keyspace V :=
  { ks with paused := ks.paused.filter fun q => decide (q ≠ queue) }

/-! ## Schedules -/

/-- An unchanged cadence keeps its next occurrence. -/
def upsertSchedule (ks : Keyspace V) (schedule : ScheduleRecord V) : Keyspace V :=
  let nextRunAt := match ks.schedules.get? schedule.key with
    | none => schedule.nextRunAt
    | some existing =>
      if existing.cron = schedule.cron ∧ existing.tz = schedule.tz ∧
          existing.everyMs = schedule.everyMs then existing.nextRunAt
      else schedule.nextRunAt
  { ks with
    schedules := ks.schedules.set schedule.key { schedule with nextRunAt }
    scheduleIndex := ks.scheduleIndex.add schedule.key nextRunAt }

def removeSchedule (ks : Keyspace V) (key : ScheduleKey) : Bool × Keyspace V :=
  ((ks.scheduleIndex.score? key).isSome,
    { ks with schedules := ks.schedules.delete key, scheduleIndex := ks.scheduleIndex.rem key })

/-- Compare-and-swap on `nextRunAt`. -/
def advanceSchedule (ks : Keyspace V) (key : ScheduleKey) (expectedRunAt nextRunAt : ℤ) :
    Bool × Keyspace V :=
  match ks.schedules.get? key with
  | none => (false, ks)
  | some schedule =>
    if schedule.nextRunAt ≠ expectedRunAt then (false, ks)
    else
      (true, { ks with
        schedules := ks.schedules.set key { schedule with nextRunAt }
        scheduleIndex := ks.scheduleIndex.add key nextRunAt })

/-- The compare-and-swap and the tick job's insert in one script. -/
def tickSchedule (indexes : IndexConfig) (ks : Keyspace V) (key : ScheduleKey)
    (expectedRunAt nextRunAt : ℤ) (id : JobId) (request : EnqueueRequest V) (now : ℤ) :
    Bool × Keyspace V :=
  match advanceSchedule ks key expectedRunAt nextRunAt with
  | (false, ks) => (false, ks)
  | (true, ks) =>
    if ks.jobs.has id then (false, ks) else (true, insertJobRow indexes ks id request "" now)

end EffectMq.Redis
