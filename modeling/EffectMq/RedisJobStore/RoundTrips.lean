import EffectMq.RedisJobStore.Reports
import EffectMq.RedisJobStore.DedupeSweep
import EffectMq.RedisJobStore.Wire

/-! # The Redis driver: what was written is what is read

Every terminal transition ends in one report, built from the fields its hash was left with. With the
texts of `Wire` this gives the round trips of a fresh job, of a run ledger and of an outbox member.
-/

namespace EffectMq.Redis
set_option autoImplicit false
set_option maxHeartbeats 250000

variable {V : Type}

/-- What a transition leaves, whether it finished or stopped. -/
def remains : Except (Keyspace V) (Keyspace V) → Keyspace V
  | .ok ks => ks
  | .error ks => ks

theorem leaves_map {α : Type} (a : α) (r : Except (Keyspace V) (Keyspace V)) :
    leaves (r.map fun ks => (a, ks)) = remains r := by
  cases r <;> rfl

/-! ## Retention leaves the outbox alone -/

theorem outbox_deleteJob (ks : Keyspace V) (id : JobId) : (deleteJob ks id).outbox = ks.outbox := by
  cases hjob : ks.jobs.get? id with
  | none => rw [deleteJob_of_none hjob]
  | some job =>
    obtain ⟨_, _, _, hdelete, -⟩ := deleteJob_eq hjob
    rw [hdelete]
    rfl

theorem outbox_deleteUnowed (ids : List JobId) (ks : Keyspace V) :
    (deleteUnowed ks ids).outbox = ks.outbox := by
  induction ids generalizing ks with
  | nil => rfl
  | cons id ids ih =>
    rw [deleteUnowed_cons, ih]
    split
    · rfl
    · exact outbox_deleteJob ks id

theorem outbox_applyAge (ks : Keyspace V) (name : String) (state : JobState)
    (policy : KeepStatePolicy) (now : ℤ) :
    (remains (applyAge ks name state policy now)).outbox = ks.outbox := by
  unfold applyAge
  split
  · rfl
  · split
    · rfl
    · exact outbox_deleteUnowed ..

theorem outbox_applyKeep (ks : Keyspace V) (name : String) (state : TerminalState)
    (keep : Option KeepPolicy) (now : ℤ) :
    (remains (applyKeep ks name state keep now)).outbox = ks.outbox := by
  unfold applyKeep
  split
  · rfl
  · rename_i policy _
    have hage := outbox_applyAge ks name state.toJobState policy now
    cases hresult : applyAge ks name state.toJobState policy now with
    | error ks' =>
      rw [hresult] at hage
      exact hage
    | ok ks' =>
      rw [hresult] at hage
      refine Eq.trans ?_ hage
      change (applyCount ks' name state.toJobState policy).outbox = ks'.outbox
      unfold applyCount
      split
      · rfl
      · exact outbox_deleteUnowed ..

/-! ## Terminal transitions -/

/-- The report of a job in a terminal state. -/
def reportOf (parent : ParentEnvelope) (outcome : TerminalState) (exit : Option V)
    (failedReason : String) : String × String × FlowChildReport V :=
  (parent.flowName, parent.parentStoreKey,
    { flowId := parent.flowId, childKey := parent.childKey, outcome, exit,
      failedReason := optionalString failedReason })

theorem sent_of_outbox {ks ks' : Keyspace V} (h : ks'.outbox = ks.outbox) : ks'.sent = ks.sent := by
  rw [Keyspace.sent, h, Keyspace.sent]

theorem sent_appendOutbox {ks : Keyspace V} {id : JobId} {job : JobHash V} {parent : ParentEnvelope}
    (hjob : ks.jobs.get? id = some job) (hparent : job.parent = some parent)
    (outcome : TerminalState) :
    (appendOutbox ks id outcome).sent =
      ks.sent ++ [reportOf parent outcome job.exit job.failedReason] := by
  obtain ⟨-, -, -, -, hsent⟩ := appendOutbox_spec hjob outcome
  rw [hsent, hparent]
  rfl

theorem sent_conclude {ks : Keyspace V} {id : JobId} {job : JobHash V} {parent : ParentEnvelope}
    (hjob : ks.jobs.get? id = some job) (hparent : job.parent = some parent) (name : String)
    (state : TerminalState) (outcome : AttemptOutcome) (startedAt : Option ℤ) (exit : Option V)
    (now : ℤ) :
    (remains (conclude ks id name state outcome startedAt exit now)).sent =
      ks.sent ++ [reportOf parent state job.exit job.failedReason] := by
  have hattempt : (appendAttempt ks id outcome startedAt now exit).jobs.get? id = some job := hjob
  have hsent := sent_appendOutbox hattempt hparent state
  unfold conclude
  dsimp only
  rw [sent_of_outbox (outbox_applyKeep ..), sent_of_outbox (releaseDedupe_same ..).1.2.2.2, hsent]
  rfl

/-- What `settleMarkRows` leaves of a job and of the outbox. -/
theorem settleMarkRows_job {ks : Keyspace V} {id : JobId} {job : JobHash V}
    (hjob : ks.jobs.get? id = some job) :
    (∃ flow, (settleMarkRows ks id).jobs.get? id = some { job with flow }) ∧
      (settleMarkRows ks id).sent = ks.sent := by
  obtain ⟨-, -, hjobs, -, -, houtbox⟩ :=
    foldl_markRowCancelled id (ks.flowIndex id).nodup_members ks 0
  unfold settleMarkRows markPendingRowsCancelled
  generalize (ks.flowIndex id).members.foldl (markRowCancelled id) (ks, 0) = marked at *
  obtain ⟨ks', n⟩ := marked
  refine ⟨⟨job.flow.map fun flow => { flow with pending := 0, cancelled := flow.cancelled + n }, ?_⟩,
    sent_of_outbox houtbox⟩
  have hget : ks'.jobs.get? id = some job := by rw [show ks'.jobs = ks.jobs from hjobs, hjob]
  simp [hset, hget]

theorem hset_get? {ks : Keyspace V} {id : JobId} {job : JobHash V}
    (hjob : ks.jobs.get? id = some job) (f : JobHash V → JobHash V) :
    (hset ks id f).jobs.get? id = some (f job) := by
  rw [hset, JsMap.get?_modify, if_pos rfl, hjob]
  rfl

/-- A transition that writes the hash, moves the indexes and then concludes. -/
theorem sent_settled {ks : Keyspace V} {id : JobId} {job : JobHash V} {parent : ParentEnvelope}
    (hjob : ks.jobs.get? id = some job) (f : JobHash V → JobHash V)
    (hparent : (f job).parent = some parent) (queue : QueueName) (state : JobState) (name : String)
    (terminal : TerminalState) (outcome : AttemptOutcome) (startedAt : Option ℤ) (exit : Option V)
    (now : ℤ) :
    (remains (conclude
      (addTerminal (countsMove (hset ks id f) queue state terminal.toJobState) name
        terminal.toJobState now id)
      id name terminal outcome startedAt exit now)).sent =
        ks.sent ++ [reportOf parent terminal (f job).exit (f job).failedReason] := by
  have hget : (addTerminal (countsMove (hset ks id f) queue state terminal.toJobState) name
      terminal.toJobState now id).jobs.get? id = some (f job) := hset_get? hjob f
  exact sent_conclude hget hparent name terminal outcome startedAt exit now

/-- The scripts' terminal transitions of a job, with the outcome, exit and reason they write. -/
inductive Terminates (now : ℤ) (ks : Keyspace V) (id : JobId) (job : JobHash V) :
    TerminalState → Option V → String → Keyspace V → Prop
  | finish (state : TerminalState) (storeExit : Option (Option V)) (outcome : AttemptOutcome)
      (ledgerExit : Option V) :
      Terminates now ks id job state (storeExit.getD job.exit) job.failedReason
        (remains (finish ks id job state storeExit outcome ledgerExit now))
  | finishCancelled (queue : QueueName) (name : String) (startedAt : Option ℤ) :
      Terminates now ks id job .cancelled job.exit job.failedReason
        (remains (finishCancelled ks id queue name startedAt now))
  | cancel (h : job.state = .waiting ∨ job.state = .delayed ∨ job.state = .waitingChildren) :
      Terminates now ks id job .cancelled job.exit job.failedReason (leaves (cancel ks id now))
  | stalled (recovered : List Recovered) (maxStalledCount : ℤ) (hactive : job.state = .active)
      (hrequested : job.cancelRequested = false)
      (h : maxStalledCount < ((job.stalledCount + 1 : ℕ) : ℤ)) :
      Terminates now ks id job .failed job.exit stalledReason
        (leaves (recoverJob now maxStalledCount (recovered, ks) id))
  | failFast (childKey : String) :
      Terminates now ks id job .failed job.exit (failFastReason childKey)
        (remains (settleFailFast ks id job childKey now))

theorem sent_cancel {now : ℤ} {ks : Keyspace V} {id : JobId} {job : JobHash V}
    (hjob : ks.jobs.get? id = some job)
    (h : job.state = .waiting ∨ job.state = .delayed ∨ job.state = .waitingChildren)
    {parent : ParentEnvelope} (hparent : job.parent = some parent) :
    (leaves (cancel ks id now)).sent =
      ks.sent ++ [reportOf parent .cancelled job.exit job.failedReason] := by
  generalize hbase : (if job.state = .waitingChildren then settleMarkRows ks id else ks) = base
  obtain ⟨⟨flow, hget⟩, hsent⟩ : (∃ flow, base.jobs.get? id = some { job with flow }) ∧
      base.sent = ks.sent := by
    rw [← hbase]
    split
    · exact settleMarkRows_job hjob
    · exact ⟨⟨job.flow, hjob⟩, rfl⟩
  have hcancel : cancel ks id now = (conclude (addTerminal (countsMove (hset
      (remDelayed (remWaiting base job.queue id) job.queue id) id fun job =>
        { job with state := .cancelled, finishedAt := some now, cancelRequested := false })
      job.queue job.state .cancelled) job.name .cancelled now id)
      id job.name .cancelled .cancelled job.processedAt none now).map fun ks => (.ok (), ks) := by
    rw [← hbase, cancel, hjob]
    rcases h with h | h | h <;> simp only [h]
  have hremoved : (remDelayed (remWaiting base job.queue id) job.queue id).jobs.get? id =
      some { job with flow } := hget
  rw [hcancel, leaves_map, ← hsent]
  exact sent_settled hremoved _ hparent _ _ _ .cancelled ..

/-- The same without a policy to apply. -/
theorem sent_exhausted {now : ℤ} {ks : Keyspace V} {id : JobId} {job : JobHash V}
    {parent : ParentEnvelope} (hjob : ks.jobs.get? id = some job) (f g : JobHash V → JobHash V)
    (hparent : (f (g job)).parent = some parent) (queue : QueueName) (name : String)
    (startedAt : Option ℤ) :
    (appendOutbox (addTerminal (countsMove (hset (appendAttempt (hset (remActive ks id) id g) id
      .stalled startedAt now none) id f) queue .active .failed) name .failed now id) id .failed).sent =
        ks.sent ++ [reportOf parent .failed (f (g job)).exit (f (g job)).failedReason] := by
  have hactive : (remActive ks id).jobs.get? id = some job := hjob
  have hstalled : (appendAttempt (hset (remActive ks id) id g) id .stalled startedAt now
      none).jobs.get? id = some (g job) := hset_get? hactive g
  have hget : (addTerminal (countsMove (hset (appendAttempt (hset (remActive ks id) id g) id
      .stalled startedAt now none) id f) queue .active .failed) name .failed now id).jobs.get? id =
        some (f (g job)) := hset_get? hstalled f
  exact sent_appendOutbox hget hparent .failed

theorem sent_recoverJob {now maxStalledCount : ℤ} {ks : Keyspace V} {id : JobId} {job : JobHash V}
    (recovered : List Recovered) (hjob : ks.jobs.get? id = some job) (hactive : job.state = .active)
    (hrequested : job.cancelRequested = false)
    (h : maxStalledCount < ((job.stalledCount + 1 : ℕ) : ℤ))
    {parent : ParentEnvelope} (hparent : job.parent = some parent) :
    (leaves (recoverJob now maxStalledCount (recovered, ks) id)).sent =
      ks.sent ++ [reportOf parent .failed job.exit stalledReason] := by
  unfold recoverJob
  simp only [hjob, hactive, hrequested, if_pos h, ne_eq, not_true_eq_false, if_false,
    Bool.false_eq_true, leaves]
  rw [sent_of_outbox (releaseDedupe_same ..).1.2.2.2]
  exact sent_exhausted hjob _ _ hparent ..

/-- A terminal transition sends what it wrote, once. -/
theorem Terminates.sent {now : ℤ} {ks ks' : Keyspace V} {id : JobId} {job : JobHash V}
    {outcome : TerminalState} {exit : Option V} {failedReason : String}
    (h : Terminates now ks id job outcome exit failedReason ks')
    (hjob : ks.jobs.get? id = some job) {parent : ParentEnvelope} (hparent : job.parent = some parent) :
    ks'.sent = ks.sent ++ [reportOf parent outcome exit failedReason] := by
  cases h with
  | finish storeExit ledgerOutcome ledgerExit =>
    unfold Redis.finish
    exact sent_settled hjob _ hparent ..
  | finishCancelled queue name startedAt =>
    unfold Redis.finishCancelled
    exact sent_settled hjob _ hparent _ _ _ .cancelled ..
  | cancel hstate => exact sent_cancel hjob hstate hparent
  | stalled recovered maxStalledCount hactive hrequested hlimit =>
    exact sent_recoverJob recovered hjob hactive hrequested hlimit hparent
  | failFast childKey =>
    obtain ⟨⟨flow, hget⟩, hsent⟩ := settleMarkRows_job hjob
    unfold settleFailFast
    rw [← hsent]
    exact sent_settled hget _ hparent _ _ _ .failed ..

namespace Wire

open Json (Numerals)

variable {numerals : Numerals}

/-! ## The round trips -/

/-- The record of a fresh job, from its request. -/
def insertedRecord (id : JobId) (request : EnqueueRequest Json) (now : ℤ) : JobRecord Json where
  id := id
  name := request.name
  queue := request.queue
  payload := request.payload
  metadata := request.metadata
  state := if 0 < max 0 request.delayMs then .delayed else .waiting
  priority := request.priority
  attemptsMax := request.attemptsMax
  attemptsMade := 0
  stalledCount := 0
  backoff := request.backoff
  keep := request.keep
  timeoutMs := request.timeoutMs
  cancelRequested := false
  dedupeKey := request.dedupe.map (·.key)
  trace := request.trace
  parent := request.parent
  flow := none
  runAt := now + max 0 request.delayMs
  enqueuedAt := now
  processedAt := none
  finishedAt := none
  exit := none
  failedReason := none

/-- A request that JavaScript can hold, in milliseconds and without an empty dedup key. -/
structure Encodable (numerals : Numerals) (request : EnqueueRequest Json) (now : ℤ) : Prop where
  payload : request.payload.Held numerals
  backoff : ∀ backoff ∈ request.backoff, (backoffJson backoff).Held numerals
  keep : ∀ keep ∈ request.keep, (keepJson keep).Held numerals
  parent : ∀ parent ∈ request.parent, (parentJson parent).Held numerals
  timeoutMs : ∀ t ∈ request.timeoutMs, numerals.holds (t : ℤ)
  numbers : ∀ n ∈ [0, request.priority, request.attemptsMax, now, now + max 0 request.delayMs],
    numerals.holds (n : ℤ)
  dedupe : ∀ dedupe ∈ request.dedupe, dedupe.key ≠ ""

/-- `request.dedupe?.key ?? ""`. -/
def dedupeKeyOf (request : EnqueueRequest Json) : String := (request.dedupe.map (·.key)).getD ""

theorem Encodable.held {request : EnqueueRequest Json} {now : ℤ}
    (h : Encodable numerals request now) (id : JobId) (seq : ℕ) :
    Held numerals (jobHash id request (dedupeKeyOf request) now seq) where
  payload := h.payload
  backoff := h.backoff
  keep := h.keep
  parent := h.parent
  exit _ hexit := by cases hexit
  numbers n hn := by
    have hnumbers := h.numbers n
    simp only [jobHash, List.mem_cons, List.not_mem_nil, or_false] at hn hnumbers
    exact hnumbers (by tauto)
  counters n hn := by
    have hzero := h.numbers 0 List.mem_cons_self
    simp only [jobHash, List.mem_cons, List.not_mem_nil, or_false, or_self] at hn
    subst hn
    rwa [Rat.intCast_zero] at hzero
  times o ho t ht := by
    simp only [jobHash, List.mem_cons, List.not_mem_nil, or_false, or_self] at ho
    rcases ho with rfl | rfl
    · exact h.timeoutMs t ht
    · cases ht
  flow _ hflow := by cases hflow

theorem recordOf_jobHash {request : EnqueueRequest Json} {now : ℤ}
    (h : Encodable numerals request now) (id : JobId) (seq : ℕ) :
    recordOf (jobHash id request (dedupeKeyOf request) now seq) = insertedRecord id request now := by
  have hkey : optionalString (dedupeKeyOf request) = request.dedupe.map (·.key) := by
    unfold dedupeKeyOf optionalString
    cases hdedupe : request.dedupe with
    | none => rfl
    | some dedupe => simp [h.dedupe dedupe hdedupe]
  rw [insertedRecord, ← hkey]
  rfl

theorem mem_jobFields_texts (numerals : Numerals) (hash : JobHash Json) :
    ("keep", textOr (fun k => (keepJson k).stringify numerals) hash.keep) ∈
        jobFields numerals hash ∧
      ("parent", textOr (fun p => (parentJson p).stringify numerals) hash.parent) ∈
        jobFields numerals hash ∧
      ("exit", textOr (fun e => e.stringify numerals) hash.exit) ∈ jobFields numerals hash ∧
      ("failedReason", hash.failedReason) ∈ jobFields numerals hash := by
  simp [jobFields]

/-- What is written is what is read: the hash of an inserted request whose keep policy has no infinite
limit, in whatever order its fields are answered, the ledger of any appends, and the report of every
terminal transition. -/
theorem encodings_round_trip (numerals : Numerals) :
    (∀ (id : JobId) (request : EnqueueRequest Json) (now : ℤ) (seq : ℕ)
        (pairs : List (String × String)), Encodable numerals request now →
      (∀ keep ∈ request.keep, FiniteKeep keep) →
      pairs.Perm (enqueueFields numerals id request (dedupeKeyOf request) now seq) →
      toRecord numerals (foldPairs (flatten pairs)) = some (insertedRecord id request now) ∧
      getJob numerals (getJobReply (flatten pairs)) = some (some (insertedRecord id request now))) ∧
    (∀ appends : List Append, (∀ append ∈ appends, append.Held numerals) →
      (∀ n ≤ appends.length, numerals.holds n) →
      getAttempts numerals (appends.foldl (Append.write numerals) []) =
        some (appends.mapIdx fun i append => append.record (i + 1))) ∧
    (∀ (now : ℤ) (ks ks' : Keyspace Json) (id : JobId) (job : JobHash Json)
        (parent : ParentEnvelope) (outcome : TerminalState) (exit : Option Json)
        (failedReason : String), ks.jobs.get? id = some job → job.parent = some parent →
      Terminates now ks id job outcome exit failedReason ks' →
      ks'.sent = ks.sent ++ [reportOf parent outcome exit failedReason] ∧
      ((parentJson parent).Held numerals → (∀ v ∈ exit, v.Held numerals) →
        ∀ (hash : JobHash Json) (outboxSeq : ℕ), hash.parent = some parent → hash.exit = exit →
        hash.failedReason = failedReason →
        ∃ text, appendOutbox (foldPairs (flatten (jobFields numerals hash))).get? outboxSeq
            (terminalText outcome) = some text ∧
          toOutboxEntry numerals text = some
            { id := text, flowName := parent.flowName, parentStoreKey := parent.parentStoreKey,
              report := (reportOf parent outcome exit failedReason).2.2 })) := by
  refine ⟨?_, fun _ hheld hn => getAttempts_foldl hheld hn, ?_⟩
  · intro id request now seq pairs h hkeep hperm
    rw [enqueueFields_eq] at hperm
    have hheld := h.held id seq
    have hfinite : ∀ keep ∈ (jobHash id request (dedupeKeyOf request) now seq).keep,
        FiniteKeep keep := hkeep
    rw [toRecord_jobFields hheld hfinite hperm, getJob_jobFields hheld hfinite hperm,
      recordOf_jobHash h]
    exact ⟨rfl, rfl⟩
  · intro now ks ks' id job parent outcome exit failedReason hjob hparent hterminates
    refine ⟨hterminates.sent hjob hparent,
      fun hheld hheld' hash outboxSeq hparent' hexit hreason => ?_⟩
    obtain ⟨-, hparentText, hexitText, hreasonText⟩ := mem_jobFields_texts numerals hash
    rw [hparent'] at hparentText
    rw [hexit] at hexitText
    rw [hreason] at hreasonText
    have hget : ∀ {field value : String}, (field, value) ∈ jobFields numerals hash →
        (foldPairs (flatten (jobFields numerals hash))).get? field = some value :=
      (get?_foldPairs (jobFields_nodup hash) _ _).mpr
    exact toOutboxEntry_appendOutbox hheld hheld' (hget hparentText) (hget hexitText)
      (hget hreasonText) outboxSeq outcome

def quotedParent : ParentEnvelope where
  flowName := "flow \"a\""
  flowId := "parent\u0000"
  childKey := "key\\"
  parentStoreKey := "store/1"
  depth := 1

/-- A child whose texts need every kind of escape. -/
def quotedRequest : EnqueueRequest Json :=
  { EnqueueRequest.plain "job\n" "send \"mail\"" "mail"
      (.obj [("text", .str "\u0001\"\\"), ("none", .null)]) with
    metadata := [("to", "a\tb")]
    keep := some { completed := some ⟨some 3, none⟩ }
    dedupe := some ⟨"k", none, false, false⟩
    parent := some quotedParent }

def quotedJob : JobHash Json := jobHash "job\n" quotedRequest "k" 5 1

def quotedKeyspace : Keyspace Json := { Keyspace.empty with jobs := JsMap.single "job\n" quotedJob }

theorem encodable_quotedRequest : Encodable Json.wholes quotedRequest 5 where
  payload := by simp [quotedRequest, EnqueueRequest.plain]
  backoff _ hbackoff := by cases hbackoff
  keep := by
    rintro keep ⟨⟩
    simp [keepJson, keepStateMembers, optional, numberJson]
    rfl
  parent := by
    rintro parent ⟨⟩
    simp [parentJson, quotedParent]
    rfl
  timeoutMs _ ht := by cases ht
  numbers n _ := rfl
  dedupe := by
    rintro dedupe ⟨⟩
    decide

theorem finiteKeep_quotedRequest : ∀ keep ∈ quotedRequest.keep, FiniteKeep keep := by
  rintro keep ⟨⟩
  refine ⟨fun p hp => ?_, fun p hp => (by cases hp), fun p hp => (by cases hp),
    fun p hp => (by cases hp)⟩
  obtain rfl := Option.some.inj hp
  refine ⟨fun n hn => ?_, fun n hn => (by cases hn)⟩
  obtain rfl := Option.some.inj hn
  exact ⟨3, rfl⟩

theorem encodings_round_trip_quoted :
    toRecord Json.wholes (foldPairs (flatten
        (enqueueFields Json.wholes "job\n" quotedRequest "k" 5 1))) =
      some (insertedRecord "job\n" quotedRequest 5) ∧
    getAttempts Json.wholes ([⟨.retried, none, 7, some .null⟩, ⟨.completed, some 8, 9, none⟩].foldl
        (Append.write Json.wholes) []) =
      some [⟨1, none, 7, .retried, some .null⟩, ⟨2, some 8, 9, .completed, none⟩] ∧
    (remains (finish quotedKeyspace "job\n" quotedJob .completed (some (some .null)) .completed
        (some Json.null) 9)).sent = [reportOf quotedParent .completed (some Json.null) ""] :=
  ⟨((encodings_round_trip Json.wholes).1 "job\n" quotedRequest 5 1 _ encodable_quotedRequest
      finiteKeep_quotedRequest (List.Perm.refl _)).1,
    (encodings_round_trip Json.wholes).2.1 _
      (by
        intro append happend
        simp only [List.mem_cons, List.not_mem_nil, or_false] at happend
        rcases happend with rfl | rfl
        · exact ⟨fun _ ht => (by cases ht), rfl, fun _ hv => by cases hv; simp⟩
        · exact ⟨fun _ ht => (by cases ht; rfl), rfl, fun _ hv => by cases hv⟩)
      fun _ _ => rfl,
    ((encodings_round_trip Json.wholes).2.2 9 quotedKeyspace _ "job\n" quotedJob quotedParent
      .completed (some Json.null) "" rfl rfl
      (.finish .completed (some (some Json.null)) .completed (some Json.null))).1⟩

/-! ## A limit without end -/

/-- A request that keeps every completed job. -/
def endlessRequest : EnqueueRequest Json :=
  { EnqueueRequest.plain "job" "send" "mail" .null with
    keep := some { completed := some ⟨some .posInf, none⟩ } }

theorem keep_of_toRecord {hash : JsMap String String} {record : JobRecord Json}
    (h : toRecord numerals hash = some record) :
    optionalJson numerals keepOf (hash.get? "keep") = some record.keep := by
  unfold toRecord at h
  iterate 8 obtain ⟨_, -, h⟩ := Option.bind_eq_some_iff.mp h
  obtain ⟨keep, hkeep, h⟩ := Option.bind_eq_some_iff.mp h
  iterate 9 obtain ⟨_, -, h⟩ := Option.bind_eq_some_iff.mp h
  obtain rfl := Option.some.inj h
  exact hkeep

/-- The infinite count is written as `null`, which is no count. -/
theorem infinite_keep_lost :
    ¬ ∀ (id : JobId) (request : EnqueueRequest Json) (now : ℤ) (seq : ℕ),
      Encodable Json.wholes request now →
      toRecord Json.wholes (foldPairs (flatten
        (enqueueFields Json.wholes id request (dedupeKeyOf request) now seq))) =
          some (insertedRecord id request now) := by
  intro h
  have hheld : ∀ keep ∈ endlessRequest.keep, (keepJson keep).Held Json.wholes := by
    rintro keep ⟨⟩
    simp [keepJson, keepStateMembers, optional, numberJson]
  have hencodable : Encodable Json.wholes endlessRequest 0 :=
    { payload := by simp [endlessRequest, EnqueueRequest.plain]
      backoff := fun _ hbackoff => by cases hbackoff
      keep := hheld
      parent := fun _ hparent => by cases hparent
      timeoutMs := fun _ ht => by cases ht
      numbers := fun _ _ => rfl
      dedupe := fun _ hdedupe => by cases hdedupe }
  have hkeep := keep_of_toRecord (h "job" endlessRequest 0 1 hencodable)
  have hfield := (get?_foldPairs (jobFields_nodup _) _ _).mpr
    (mem_jobFields_texts Json.wholes (jobHash "job" endlessRequest "" 0 1)).1
  rw [← enqueueFields_eq] at hfield
  rw [show dedupeKeyOf endlessRequest = "" from rfl, hfield] at hkeep
  cases (optionalJson_stringify keepOf (hheld _ rfl)).symm.trans hkeep

end Wire

end EffectMq.Redis
