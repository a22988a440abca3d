import Mathlib.Data.List.Induction
import EffectMq.RedisJobStore.Encoding

/-! # The Redis driver: hashes, ledgers and outboxes as texts

What `insertJobRow`, `appendAttempt` and `appendOutbox` of `redis/scripts.ts` write with the arguments
that `RedisJobStore.ts` gives them, and what `foldPairs`, `toRecord`, `getAttempts` and
`toOutboxEntry` make of it. Numbers pass two formatters, `String(x)` and `string.format("%.0f", x)`;
a list or a counter that Lua concatenates is far below the length where it would be rounded.
-/

namespace EffectMq.Redis.Wire
set_option autoImplicit false
set_option maxHeartbeats 250000

open Json (Numerals member)

variable (numerals : Numerals)

/-! ## Fields -/

/-- `String(x)`. -/
def numberText (q : ℚ) : String := String.ofList (numerals.text q)

/-- `string.format("%.0f", x)`. -/
def fmt (n : ℤ) : String := n.repr

/-- `""` for an absent value. -/
def textOr {α : Type} (write : α → String) : Option α → String
  | none => ""
  | some a => write a

def stateText : JobState → String
  | .waiting => "waiting"
  | .delayed => "delayed"
  | .active => "active"
  | .waitingChildren => "waiting-children"
  | .completed => "completed"
  | .failed => "failed"
  | .cancelled => "cancelled"

def stateOf (text : String) : Option JobState :=
  [.waiting, .delayed, .active, .waitingChildren, .completed, .failed, .cancelled].find? fun state =>
    decide (stateText state = text)

/-- The fields `insertJobRow` sets. -/
def insertFields (id name queue payloadJson metadataJson priority attemptsMax backoffJson keepJson
    timeoutMs dedupeKey traceJson parentJson : String) (delayMs now : ℤ) (nowStr : String) (seq : ℕ) :
    List (String × String) :=
  let state := if 0 < delayMs then "delayed" else "waiting"
  let runAt := now + delayMs
  [("id", id), ("name", name), ("queue", queue), ("payload", payloadJson),
    ("metadata", metadataJson), ("state", state), ("priority", priority),
    ("attemptsMax", attemptsMax), ("attemptsMade", "0"), ("stalledCount", "0"),
    ("backoff", backoffJson), ("keep", keepJson), ("timeoutMs", timeoutMs),
    ("cancelRequested", "0"), ("dedupeKey", dedupeKey), ("trace", traceJson),
    ("parent", parentJson), ("runAt", fmt runAt), ("enqueuedAt", nowStr), ("processedAt", ""),
    ("finishedAt", ""), ("exit", ""), ("failedReason", ""), ("lockToken", ""),
    ("lockExpiresAt", ""), ("seq", fmt seq)]

/-- The same with the arguments of `enqueueOnce`. -/
def enqueueFields (id : JobId) (request : EnqueueRequest Json) (dedupeKey : String) (now : ℤ)
    (seq : ℕ) : List (String × String) :=
  insertFields id request.name request.queue (request.payload.stringify numerals)
    ((metadataJson request.metadata).stringify numerals) (numberText numerals request.priority)
    (numberText numerals request.attemptsMax)
    (textOr (fun backoff => (backoffJson backoff).stringify numerals) request.backoff)
    (textOr (fun keep => (keepJson keep).stringify numerals) request.keep)
    (textOr (fun t : Millis => numberText numerals t) request.timeoutMs) dedupeKey
    (textOr (fun trace => (traceJson trace).stringify numerals) request.trace)
    (textOr (fun parent => (parentJson parent).stringify numerals) request.parent)
    (max 0 request.delayMs) now (numberText numerals now) seq

/-- The fields of a job, in the order of its insert and of its manifest. -/
def jobFields (job : JobHash Json) : List (String × String) :=
  [("id", job.id), ("name", job.name), ("queue", job.queue),
    ("payload", job.payload.stringify numerals),
    ("metadata", (metadataJson job.metadata).stringify numerals), ("state", stateText job.state),
    ("priority", numberText numerals job.priority),
    ("attemptsMax", numberText numerals job.attemptsMax), ("attemptsMade", fmt job.attemptsMade),
    ("stalledCount", fmt job.stalledCount),
    ("backoff", textOr (fun backoff => (backoffJson backoff).stringify numerals) job.backoff),
    ("keep", textOr (fun keep => (keepJson keep).stringify numerals) job.keep),
    ("timeoutMs", textOr (fun t : Millis => numberText numerals t) job.timeoutMs),
    ("cancelRequested", if job.cancelRequested then "1" else "0"), ("dedupeKey", job.dedupeKey),
    ("trace", textOr (fun trace => (traceJson trace).stringify numerals) job.trace),
    ("parent", textOr (fun parent => (parentJson parent).stringify numerals) job.parent),
    ("runAt", fmt job.runAt), ("enqueuedAt", numberText numerals job.enqueuedAt),
    ("processedAt", textOr (fun t : ℤ => numberText numerals t) job.processedAt),
    ("finishedAt", textOr (fun t : ℤ => numberText numerals t) job.finishedAt),
    ("exit", textOr (fun exit => exit.stringify numerals) job.exit),
    ("failedReason", job.failedReason), ("lockToken", job.lockToken),
    ("lockExpiresAt", textOr (fun t : ℤ => fmt t) job.lockExpiresAt), ("seq", fmt job.seq)] ++
  match job.flow with
  | none => []
  | some flow =>
    [("flowFailFast", if flow.failFast then "1" else "0"), ("flowPending", fmt flow.pending),
      ("flowCompleted", fmt flow.completed), ("flowFailed", fmt flow.failed),
      ("flowCancelled", fmt flow.cancelled)]

/-- The script writes the hash of the typed keyspace. -/
theorem enqueueFields_eq (id : JobId) (request : EnqueueRequest Json) (dedupeKey : String) (now : ℤ)
    (seq : ℕ) :
    enqueueFields numerals id request dedupeKey now seq =
      jobFields numerals (jobHash id request dedupeKey now seq) := by
  have hstate : (if 0 < max 0 request.delayMs then "delayed" else "waiting") =
      stateText (if 0 < max 0 request.delayMs then .delayed else .waiting) := by
    split <;> rfl
  rw [enqueueFields, insertFields, jobFields, jobHash]
  simp only [hstate]
  rfl

/-! ## Reading a hash -/

/-- `HGETALL` as one flat list. -/
def flatten (pairs : List (String × String)) : List String :=
  pairs.flatMap fun pair => [pair.1, pair.2]

def foldPairsInto (out : JsMap String String) : List String → JsMap String String
  | field :: value :: flat => foldPairsInto (out.set field value) flat
  | _ => out

def foldPairs (flat : List String) : JsMap String String := foldPairsInto ∅ flat

/-- `Number(text)`, for a text that is an integer. -/
def toInteger (text : String) : Option ℤ :=
  if text = "" then some 0 else (numerals.read text.toList).bind fun q => asInt (.num q)

def toCount (text : String) : Option ℕ := (toInteger numerals text).bind fun n => asNat (.num n)

def optionalNumber : Option String → Option (Option ℤ)
  | none => some none
  | some text => if text = "" then some none else (toInteger numerals text).map some

/-- A text that is no JSON is a syntax error. -/
def optionalJson {α : Type} (decode : Json → Option α) : Option String → Option (Option α)
  | none => some none
  | some text =>
    if text = "" then some none else ((Json.parse numerals text).bind decode).map some

/-- Manifest presence is the phase marker. -/
def flowOf (hash : JsMap String String) : Option (Option FlowState) :=
  match (hash.get? "flowPending").bind optionalString with
  | none => some none
  | some text => do
    let pending ← toCount numerals text
    let completed ← toCount numerals ((hash.get? "flowCompleted").getD "0")
    let failed ← toCount numerals ((hash.get? "flowFailed").getD "0")
    let cancelled ← toCount numerals ((hash.get? "flowCancelled").getD "0")
    let failFast := decide (hash.get? "flowFailFast" = some "1")
    some (some { failFast, pending, completed, failed, cancelled })

def toRecord (hash : JsMap String String) : Option (JobRecord Json) := do
  let payload ← optionalJson numerals some (hash.get? "payload")
  let metadata ← optionalJson numerals metadataOf (hash.get? "metadata")
  let state ← stateOf ((hash.get? "state").getD "waiting")
  let priority ← toInteger numerals ((hash.get? "priority").getD "0")
  let attemptsMax ← toInteger numerals ((hash.get? "attemptsMax").getD "1")
  let attemptsMade ← toCount numerals ((hash.get? "attemptsMade").getD "0")
  let stalledCount ← toCount numerals ((hash.get? "stalledCount").getD "0")
  let backoff ← optionalJson numerals backoffOf (hash.get? "backoff")
  let keep ← optionalJson numerals keepOf (hash.get? "keep")
  let timeoutMs ← optionalNumber numerals (hash.get? "timeoutMs")
  let trace ← optionalJson numerals traceOf (hash.get? "trace")
  let parent ← optionalJson numerals parentOf (hash.get? "parent")
  let flow ← flowOf numerals hash
  let runAt ← toInteger numerals ((hash.get? "runAt").getD "0")
  let enqueuedAt ← toInteger numerals ((hash.get? "enqueuedAt").getD "0")
  let processedAt ← optionalNumber numerals (hash.get? "processedAt")
  let finishedAt ← optionalNumber numerals (hash.get? "finishedAt")
  let exit ← optionalJson numerals some (hash.get? "exit")
  some
    { id := (hash.get? "id").getD ""
      name := (hash.get? "name").getD ""
      queue := (hash.get? "queue").getD ""
      payload := payload.getD .null
      metadata := metadata.getD []
      state, priority, attemptsMax, attemptsMade, stalledCount, backoff, keep, timeoutMs
      cancelRequested := decide (hash.get? "cancelRequested" = some "1")
      dedupeKey := (hash.get? "dedupeKey").bind optionalString
      trace, parent, flow, runAt, enqueuedAt, processedAt, finishedAt, exit
      failedReason := (hash.get? "failedReason").bind optionalString }

/-- The record of a typed hash. -/
def recordOf (job : JobHash Json) : JobRecord Json :=
  { job with
    dedupeKey := optionalString job.dedupeKey, failedReason := optionalString job.failedReason }

theorem foldPairsInto_flatten (out : JsMap String String) (pairs : List (String × String)) :
    foldPairsInto out (flatten pairs) =
      pairs.foldl (fun m pair => m.set pair.1 pair.2) out := by
  induction pairs generalizing out with
  | nil => rfl
  | cons pair pairs ih => exact ih (out.set pair.1 pair.2)

/-- A reply that names each field once is read back in full. -/
theorem get?_foldPairs {pairs : List (String × String)} (h : (pairs.map Prod.fst).Nodup)
    (field value : String) :
    (foldPairs (flatten pairs)).get? field = some value ↔ (field, value) ∈ pairs := by
  have hentries := JsMap.entries_foldl_set Prod.fst Prod.snd pairs (∅ : JsMap String String) h
    fun _ _ => rfl
  rw [JsMap.get?_eq_some, foldPairs, foldPairsInto_flatten, hentries]
  simp

variable {numerals}

theorem stringify_ne_empty (v : Json) : v.stringify numerals ≠ "" := by
  intro h
  have hlist : Json.stringifyChars numerals v = [] := by
    rw [← String.toList_ofList (l := Json.stringifyChars numerals v)]
    exact congrArg String.toList h
  cases v with
  | null => simp [Json.stringifyChars] at hlist
  | bool b => cases b <;> simp [Json.stringifyChars, Json.boolText] at hlist
  | num q =>
    rw [Json.stringifyChars] at hlist
    exact numerals.text_ne_nil q hlist
  | str s => simp [Json.stringifyChars, Json.quote] at hlist
  | arr vs => simp [Json.stringifyChars, Json.arrayText] at hlist
  | obj ms => simp [Json.stringifyChars, Json.objectText] at hlist

theorem toInteger_numberText {n : ℤ} (h : numerals.holds n) :
    toInteger numerals (numberText numerals n) = some n := by
  have hne : numberText numerals n ≠ "" := by
    intro h
    apply numerals.text_ne_nil n
    rw [← String.toList_ofList (l := numerals.text n)]
    exact congrArg String.toList h
  rw [toInteger, if_neg hne, numberText, String.toList_ofList, numerals.read_text n h]
  exact asInt_intCast n

theorem toInteger_fmt {n : ℤ} (h : numerals.holds n) : toInteger numerals (fmt n) = some n := by
  have hne : fmt n ≠ "" := fun h => Json.repr_ne_nil n (congrArg String.toList h)
  rw [toInteger, if_neg hne, fmt, numerals.read_repr n h]
  exact asInt_intCast n

theorem toCount_fmt {n : ℕ} (h : numerals.holds n) : toCount numerals (fmt n) = some n := by
  rw [← Rat.intCast_natCast] at h
  rw [toCount, toInteger_fmt h]
  exact asNat_natCast n

theorem optionalNumber_textOr {write : ℤ → String} {o : Option ℤ}
    (h : ∀ n ∈ o, toInteger numerals (write n) = some n) (hne : ∀ n, write n ≠ "") :
    optionalNumber numerals (some (textOr write o)) = some o := by
  cases o with
  | none => rfl
  | some n => simp [optionalNumber, textOr, hne n, h n rfl]

theorem numberText_ne_empty (q : ℚ) : numberText numerals q ≠ "" := by
  intro h
  apply numerals.text_ne_nil q
  rw [← String.toList_ofList (l := numerals.text q)]
  exact congrArg String.toList h

theorem optionalJson_stringify {α : Type} (decode : Json → Option α) {v : Json}
    (h : v.Held numerals) :
    optionalJson numerals decode (some (v.stringify numerals)) = (decode v).map some := by
  rw [optionalJson, if_neg (stringify_ne_empty v), Json.parse_stringify numerals h]
  rfl

theorem optionalJson_textOr {α : Type} {encode : α → Json} {decode : Json → Option α}
    {o : Option α} (hheld : ∀ a ∈ o, (encode a).Held numerals)
    (h : ∀ a ∈ o, decode (encode a) = some a) :
    optionalJson numerals decode (some (textOr (fun a => (encode a).stringify numerals) o)) =
      some o := by
  cases o with
  | none => rfl
  | some a => rw [textOr, optionalJson_stringify decode (hheld a rfl), h a rfl]; rfl

theorem stateOf_stateText (state : JobState) : stateOf (stateText state) = some state := by
  cases state <;> rfl

theorem jobFields_nodup (job : JobHash Json) :
    ((jobFields numerals job).map Prod.fst).Nodup := by
  cases hflow : job.flow with
  | none =>
    rw [jobFields, hflow]
    simp only [List.append_nil, List.map_cons, List.map_nil]
    decide
  | some flow =>
    rw [jobFields, hflow]
    simp only [List.map_append, List.map_cons, List.map_nil]
    decide

/-- Every number in the hash is one that JavaScript can hold. -/
structure Held (numerals : Numerals) (job : JobHash Json) : Prop where
  payload : job.payload.Held numerals
  backoff : ∀ backoff ∈ job.backoff, (backoffJson backoff).Held numerals
  keep : ∀ keep ∈ job.keep, (keepJson keep).Held numerals
  parent : ∀ parent ∈ job.parent, (parentJson parent).Held numerals
  exit : ∀ exit ∈ job.exit, exit.Held numerals
  numbers : ∀ n ∈ [job.runAt, job.priority, job.attemptsMax, job.enqueuedAt], numerals.holds (n : ℤ)
  counters : ∀ n ∈ [job.attemptsMade, job.stalledCount], numerals.holds (n : ℕ)
  times : ∀ o ∈ [job.timeoutMs, job.processedAt, job.finishedAt], ∀ t ∈ o, numerals.holds (t : ℤ)
  flow : ∀ flow ∈ job.flow, ∀ n ∈ [flow.pending, flow.completed, flow.failed, flow.cancelled],
    numerals.holds (n : ℕ)

theorem flowOf_jobFields {job : JobHash Json} {hash : JsMap String String}
    (hheld : ∀ flow ∈ job.flow, ∀ n ∈ [flow.pending, flow.completed, flow.failed, flow.cancelled],
      numerals.holds (n : ℕ))
    (hget : ∀ field value, hash.get? field = some value ↔ (field, value) ∈ jobFields numerals job) :
    flowOf numerals hash = some job.flow := by
  cases hflow : job.flow with
  | none =>
    have hpending : hash.get? "flowPending" = none := by
      rw [Option.eq_none_iff_forall_ne_some]
      intro value hvalue
      have hmem := (hget _ _).mp hvalue
      rw [jobFields, hflow] at hmem
      simp at hmem
    rw [flowOf, hpending]
    rfl
  | some flow =>
    have hfield : ∀ {field value : String},
        (field, value) ∈ [("flowFailFast", if flow.failFast then "1" else "0"),
          ("flowPending", fmt flow.pending), ("flowCompleted", fmt flow.completed),
          ("flowFailed", fmt flow.failed), ("flowCancelled", fmt flow.cancelled)] →
        hash.get? field = some value := by
      intro field value hmem
      rw [hget, jobFields, hflow]
      exact List.mem_append_right _ hmem
    have hfailFast : hash.get? "flowFailFast" = some (if flow.failFast then "1" else "0") :=
      hfield (by simp)
    have hpending : hash.get? "flowPending" = some (fmt flow.pending) := hfield (by simp)
    have hcompleted : hash.get? "flowCompleted" = some (fmt flow.completed) := hfield (by simp)
    have hfailed : hash.get? "flowFailed" = some (fmt flow.failed) := hfield (by simp)
    have hcancelled : hash.get? "flowCancelled" = some (fmt flow.cancelled) := hfield (by simp)
    have hne : fmt flow.pending ≠ "" := fun h => Json.repr_ne_nil _ (congrArg String.toList h)
    have hcount : ∀ n ∈ [flow.pending, flow.completed, flow.failed, flow.cancelled],
        toCount numerals (fmt n) = some n := fun n hn => toCount_fmt (hheld flow hflow n hn)
    have hone : decide (hash.get? "flowFailFast" = some "1") = flow.failFast := by
      rw [hfailFast]
      cases flow.failFast <;> rfl
    simp only [List.forall_mem_cons] at hcount
    simp only [flowOf, hpending, Option.bind_some, optionalString, if_neg hne, hcompleted, hfailed,
      hcancelled, Option.getD_some, hcount, hone, Option.bind_eq_bind]

/-- A reply with the fields of a job in any order is its record. -/
theorem toRecord_jobFields {job : JobHash Json} (hheld : Held numerals job)
    (hfinite : ∀ keep ∈ job.keep, FiniteKeep keep)
    {pairs : List (String × String)} (hperm : pairs.Perm (jobFields numerals job)) :
    toRecord numerals (foldPairs (flatten pairs)) = some (recordOf job) := by
  have hnodup : (pairs.map Prod.fst).Nodup :=
    (hperm.map Prod.fst).nodup_iff.mpr (jobFields_nodup job)
  generalize hhash : foldPairs (flatten pairs) = hash
  have hget : ∀ field value, hash.get? field = some value ↔
      (field, value) ∈ jobFields numerals job := by
    intro field value
    rw [← hhash, get?_foldPairs hnodup, hperm.mem_iff]
  have hfield : ∀ field value, (field, value) ∈ jobFields numerals job →
      hash.get? field = some value := fun field value h => (hget field value).mpr h
  have hid := hfield "id" job.id (by simp [jobFields])
  have hname := hfield "name" job.name (by simp [jobFields])
  have hqueue := hfield "queue" job.queue (by simp [jobFields])
  have hpayload := hfield "payload" (job.payload.stringify numerals) (by simp [jobFields])
  have hmetadata := hfield "metadata"
    ((metadataJson job.metadata).stringify numerals) (by simp [jobFields])
  have hstate := hfield "state" (stateText job.state) (by simp [jobFields])
  have hpriority := hfield "priority" (numberText numerals job.priority) (by simp [jobFields])
  have hattemptsMax := hfield "attemptsMax"
    (numberText numerals job.attemptsMax) (by simp [jobFields])
  have hattemptsMade := hfield "attemptsMade" (fmt job.attemptsMade) (by simp [jobFields])
  have hstalledCount := hfield "stalledCount" (fmt job.stalledCount) (by simp [jobFields])
  have hbackoff := hfield "backoff"
    (textOr (fun b => (backoffJson b).stringify numerals) job.backoff) (by simp [jobFields])
  have hkeep := hfield "keep"
    (textOr (fun k => (keepJson k).stringify numerals) job.keep) (by simp [jobFields])
  have htimeoutMs := hfield "timeoutMs"
    (textOr (fun t : ℤ => numberText numerals t) job.timeoutMs) (by simp [jobFields])
  have hcancelRequested := hfield "cancelRequested"
    (if job.cancelRequested then "1" else "0") (by simp [jobFields])
  have hdedupeKey := hfield "dedupeKey" job.dedupeKey (by simp [jobFields])
  have htrace := hfield "trace"
    (textOr (fun t => (traceJson t).stringify numerals) job.trace) (by simp [jobFields])
  have hparent := hfield "parent"
    (textOr (fun p => (parentJson p).stringify numerals) job.parent) (by simp [jobFields])
  have hrunAt := hfield "runAt" (fmt job.runAt) (by simp [jobFields])
  have henqueuedAt := hfield "enqueuedAt" (numberText numerals job.enqueuedAt) (by simp [jobFields])
  have hprocessedAt := hfield "processedAt"
    (textOr (fun t : ℤ => numberText numerals t) job.processedAt) (by simp [jobFields])
  have hfinishedAt := hfield "finishedAt"
    (textOr (fun t : ℤ => numberText numerals t) job.finishedAt) (by simp [jobFields])
  have hexit := hfield "exit"
    (textOr (fun e => e.stringify numerals) job.exit) (by simp [jobFields])
  have hfailedReason := hfield "failedReason" job.failedReason (by simp [jobFields])
  have hnumber : ∀ o ∈ [job.timeoutMs, job.processedAt, job.finishedAt],
      optionalNumber numerals (some (textOr (fun t : ℤ => numberText numerals t) o)) = some o :=
    fun o ho => optionalNumber_textOr (fun n hn => toInteger_numberText (hheld.times o ho n hn))
      fun n => numberText_ne_empty n
  have hinteger : ∀ n ∈ [job.priority, job.attemptsMax, job.enqueuedAt],
      toInteger numerals (numberText numerals n) = some n := fun n hn =>
    toInteger_numberText (hheld.numbers n (List.mem_cons_of_mem _ hn))
  have hfmt : toInteger numerals (fmt job.runAt) = some job.runAt :=
    toInteger_fmt (hheld.numbers _ List.mem_cons_self)
  have hcount : ∀ n ∈ [job.attemptsMade, job.stalledCount], toCount numerals (fmt n) = some n :=
    fun n hn => toCount_fmt (hheld.counters n hn)
  have hcancel : decide (hash.get? "cancelRequested" = some "1") = job.cancelRequested := by
    rw [hcancelRequested]
    cases job.cancelRequested <;> rfl
  have hexit' : optionalJson numerals some (hash.get? "exit") = some job.exit := by
    rw [hexit]
    exact optionalJson_textOr hheld.exit fun _ _ => rfl
  have hbackoff' : optionalJson numerals backoffOf (hash.get? "backoff") = some job.backoff := by
    rw [hbackoff]
    exact optionalJson_textOr hheld.backoff fun b _ => backoffOf_backoffJson b
  have hkeep' : optionalJson numerals keepOf (hash.get? "keep") = some job.keep := by
    rw [hkeep]
    exact optionalJson_textOr hheld.keep fun k hk => keepOf_keepJson (hfinite k hk)
  have htrace' : optionalJson numerals traceOf (hash.get? "trace") = some job.trace := by
    rw [htrace]
    exact optionalJson_textOr (fun t _ => held_traceJson numerals t) fun t _ => traceOf_traceJson t
  have hparent' : optionalJson numerals parentOf (hash.get? "parent") = some job.parent := by
    rw [hparent]
    exact optionalJson_textOr hheld.parent fun p _ => parentOf_parentJson p
  have hpayload' : optionalJson numerals some (hash.get? "payload") = some (some job.payload) := by
    rw [hpayload]
    exact optionalJson_stringify some hheld.payload
  have hmetadata' : optionalJson numerals metadataOf (hash.get? "metadata") =
      some (some job.metadata) := by
    rw [hmetadata, optionalJson_stringify metadataOf (held_metadataJson numerals _),
      metadataOf_metadataJson]
    rfl
  simp only [List.forall_mem_cons] at hnumber hinteger hcount
  simp only [toRecord, hid, hname, hqueue, hpayload', hmetadata', hstate, hpriority, hattemptsMax,
    hattemptsMade, hstalledCount, htimeoutMs, hrunAt, henqueuedAt, hprocessedAt, hfinishedAt,
    hdedupeKey, hfailedReason, hcancel, hexit', hbackoff', hkeep', htrace', hparent', hnumber,
    flowOf_jobFields hheld.flow hget, stateOf_stateText, hinteger, hfmt, hcount, Option.getD_some,
    Option.bind_eq_bind, Option.bind_some]
  rfl

/-! ## The reply of `getJob` -/

variable (numerals)

/-- `cjson.encode` of a flat list; an empty one is answered in its own words. -/
def getJobReply (flat : List String) : String :=
  if flat = [] then "[]"
  else String.ofList (Json.arrayText (flat.map (Json.quote Json.cjsonEscape)))

/-- `getJob` of `RedisJobStore.ts`, from the reply of the script. -/
def getJob (raw : String) : Option (Option (JobRecord Json)) := do
  let reply ← Json.parse numerals raw
  let flat ← match reply with
    | .arr vs => vs.mapM asString
    | _ => none
  if flat = [] then some none else (toRecord numerals (foldPairs flat)).map some

variable {numerals}

theorem mapM_asString (flat : List String) : (flat.map Json.str).mapM asString = some flat := by
  induction flat with
  | nil => rfl
  | cons s flat ih =>
    rw [List.map_cons, List.mapM_cons, ih]
    rfl

theorem parse_getJobReply (flat : List String) :
    Json.parse numerals (getJobReply flat) = some (.arr (flat.map Json.str)) := by
  rw [getJobReply]
  split
  next hnil =>
    subst hnil
    exact Json.Spells.parseChars (Json.spells_array .nil)
  next =>
    rw [Json.parse, String.toList_ofList]
    apply Json.Spells.parseChars
    apply Json.spells_array
    rw [List.forall₂_map_left_iff, List.forall₂_map_right_iff, List.forall₂_same]
    exact fun s _ => (Json.quotes_quote Json.escapes_cjsonEscape s).spells

theorem getJob_jobFields {job : JobHash Json} (hheld : Held numerals job)
    (hfinite : ∀ keep ∈ job.keep, FiniteKeep keep)
    {pairs : List (String × String)} (hperm : pairs.Perm (jobFields numerals job)) :
    getJob numerals (getJobReply (flatten pairs)) = some (some (recordOf job)) := by
  have hne : flatten pairs ≠ [] := by
    intro h
    have hpairs : pairs = [] := by
      cases pairs with
      | nil => rfl
      | cons => cases h
    rw [hpairs, List.nil_perm] at hperm
    simp [jobFields] at hperm
  rw [getJob, parse_getJobReply]
  simp only [Option.bind_eq_bind, Option.bind_some]
  rw [mapM_asString, Option.bind_some, if_neg hne, toRecord_jobFields hheld hfinite hperm]
  rfl

/-! ## The run ledger -/

def attemptOutcomeText : AttemptOutcome → String
  | .completed => "completed"
  | .retried => "retried"
  | .failed => "failed"
  | .stalled => "stalled"
  | .cancelled => "cancelled"
  | .fannedOut => "fanned-out"

def attemptOutcomeOf (text : String) : Option AttemptOutcome :=
  [.completed, .retried, .failed, .stalled, .cancelled, .fannedOut].find? fun outcome =>
    decide (attemptOutcomeText outcome = text)

/-- One ledger entry; the times and the exit are texts, `""` for absent. The `exit` key is left out
when absent, so an encoded `null` stays distinguishable. -/
def attemptText (n : ℕ) (outcome startedAt finishedAt exitJson : String) : String :=
  let started := if startedAt = "" then "null" else startedAt
  let ex := if exitJson = "" then "" else ",\"exit\":" ++ exitJson
  "\x7b\"attempt\":" ++ n.repr ++ ",\"startedAt\":" ++ started ++ ",\"finishedAt\":" ++
    finishedAt ++ ",\"outcome\":\"" ++ outcome ++ "\"" ++ ex ++ "\x7d"

def appendAttempt (ledger : List String) (outcome startedAt finishedAt exitJson : String) :
    List String :=
  ledger ++ [attemptText (ledger.length + 1) outcome startedAt finishedAt exitJson]

def asNullable {α : Type} (decode : Json → Option α) : Json → Option (Option α)
  | .null => some none
  | v => (decode v).map some

/-- One entry as `getAttempts` returns it. -/
def attemptOf (parsed : Json) : Option (AttemptRecord Json) := do
  let ms ← asMembers parsed
  let attempt ← (member "attempt" ms).bind asNat
  let startedAt ← (member "startedAt" ms).bind (asNullable asInt)
  let finishedAt ← (member "finishedAt" ms).bind asInt
  let text ← (member "outcome" ms).bind asString
  let outcome ← attemptOutcomeOf text
  some { attempt, startedAt, finishedAt, outcome, exit := member "exit" ms }

variable (numerals)

def getAttempts (entries : List String) : Option (List (AttemptRecord Json)) :=
  entries.mapM fun entry => (Json.parse numerals entry).bind attemptOf

/-- The arguments of an append, as the scripts have them. -/
structure Append where
  outcome : AttemptOutcome
  startedAt : Option ℤ
  finishedAt : ℤ
  exit : Option Json

def Append.write (ledger : List String) (append : Append) : List String :=
  appendAttempt ledger (attemptOutcomeText append.outcome)
    (textOr (fun t : ℤ => numberText numerals t) append.startedAt)
    (numberText numerals append.finishedAt)
    (textOr (fun exit => exit.stringify numerals) append.exit)

def Append.record (append : Append) (n : ℕ) : AttemptRecord Json where
  attempt := n
  startedAt := append.startedAt
  finishedAt := append.finishedAt
  outcome := append.outcome
  exit := append.exit

variable {numerals}

/-- The members of a ledger entry. -/
def Append.members (append : Append) (n : ℕ) : List (String × Json) :=
  ("attempt", .num n) ::
    ("startedAt", append.startedAt.elim .null fun t => .num t) ::
    ("finishedAt", .num append.finishedAt) ::
    ("outcome", .str (attemptOutcomeText append.outcome)) :: optional "exit" append.exit

theorem attemptOf_members (append : Append) (n : ℕ) :
    attemptOf (.obj (append.members n)) = some (append.record n) := by
  obtain ⟨outcome, startedAt, finishedAt, exit⟩ := append
  have houtcome : attemptOutcomeOf (attemptOutcomeText outcome) = some outcome := by
    cases outcome <;> rfl
  cases startedAt with
  | none => simp [attemptOf, asMembers, Append.members, asNullable, asString, houtcome, Append.record]
  | some t =>
    have ht : asNullable asInt (.num t) = some (some t) := by simp [asNullable]
    simp [attemptOf, asMembers, Append.members, ht, asString, houtcome, Append.record]

theorem toList_numberText (q : ℚ) : (numberText numerals q).toList = numerals.text q :=
  String.toList_ofList

theorem toList_stringify (v : Json) :
    (v.stringify numerals).toList = Json.stringifyChars numerals v :=
  String.toList_ofList

theorem spells_numberText {q : ℚ} (h : numerals.holds q) :
    Json.Spells numerals (numberText numerals q).toList (.num q) := by
  rw [toList_numberText]
  exact Json.spells_num h

theorem spells_toList_stringify {v : Json} (h : v.Held numerals) :
    Json.Spells numerals (v.stringify numerals).toList v := by
  rw [toList_stringify]
  exact Json.spells_stringify numerals v h

theorem plain_attemptOutcomeText (outcome : AttemptOutcome) :
    (attemptOutcomeText outcome).toList.all Json.isPlain = true := by
  cases outcome <;> decide

theorem toList_attemptText (n : ℕ) (outcome startedAt finishedAt exitJson : String) :
    (attemptText n outcome startedAt finishedAt exitJson).toList =
      Json.objectText
        ([(Json.quoted "attempt", n.repr.toList),
          (Json.quoted "startedAt", (if startedAt = "" then "null" else startedAt).toList),
          (Json.quoted "finishedAt", finishedAt.toList),
          (Json.quoted "outcome", Json.quoted outcome)] ++
        if exitJson = "" then [] else [(Json.quoted "exit", exitJson.toList)]) := by
  unfold attemptText
  generalize (if startedAt = "" then "null" else startedAt) = started
  by_cases hexit : exitJson = ""
  · simp only [if_pos hexit, Json.objectText, Json.memberText, Json.commas, Json.quoted,
      String.toList_append, List.cons_append, List.nil_append, List.append_assoc, List.map_cons,
      List.map_nil]
    simp
  · simp only [if_neg hexit, Json.objectText, Json.memberText, Json.commas, Json.quoted,
      String.toList_append, List.cons_append, List.nil_append, List.append_assoc, List.map_cons,
      List.map_nil]
    simp

theorem spells_started {startedAt : Option ℤ} (h : ∀ t ∈ startedAt, numerals.holds (t : ℤ)) :
    Json.Spells numerals
      (if textOr (fun t : ℤ => numberText numerals t) startedAt = "" then "null"
        else textOr (fun t : ℤ => numberText numerals t) startedAt).toList
      (startedAt.elim .null fun t => .num t) := by
  cases startedAt with
  | none => exact Json.spells_null
  | some t =>
    rw [textOr, if_neg (numberText_ne_empty _)]
    exact spells_numberText (h t rfl)

/-- An optional member that is spliced when its text is not empty. -/
theorem spells_optional {name : String} (h : name.toList.all Json.isPlain = true)
    {v : Option Json} (hheld : ∀ v' ∈ v, v'.Held numerals) :
    List.Forall₂ (Json.SpellsMember numerals)
      (if textOr (fun v => v.stringify numerals) v = "" then []
        else [(Json.quoted name, (textOr (fun v => v.stringify numerals) v).toList)])
      (optional name v) := by
  cases v with
  | none => exact .nil
  | some v =>
    rw [textOr, if_neg (stringify_ne_empty v)]
    exact .cons (.intro (Json.quotes_quoted h) (spells_toList_stringify (hheld v rfl))) .nil

/-- Every number in the entry is one that JavaScript can hold. -/
structure Append.Held (numerals : Numerals) (append : Append) : Prop where
  startedAt : ∀ t ∈ append.startedAt, numerals.holds (t : ℤ)
  finishedAt : numerals.holds append.finishedAt
  exit : ∀ exit ∈ append.exit, exit.Held numerals

/-- The entry a script splices is the object of its members. -/
theorem parse_attemptText {append : Append} (h : append.Held numerals) {n : ℕ}
    (hn : numerals.holds n) :
    Json.parse numerals (attemptText n (attemptOutcomeText append.outcome)
      (textOr (fun t : ℤ => numberText numerals t) append.startedAt)
      (numberText numerals append.finishedAt)
      (textOr (fun exit => exit.stringify numerals) append.exit)) =
        some (.obj (append.members n)) := by
  rw [Json.parse]
  apply Json.Spells.parseChars
  rw [toList_attemptText, List.cons_append, List.cons_append, List.cons_append, List.cons_append,
    List.nil_append, Append.members]
  apply Json.spells_object
  refine .cons (.intro (Json.quotes_quoted (by decide)) (Json.spells_natRepr hn)) ?_
  refine .cons (.intro (Json.quotes_quoted (by decide)) (spells_started h.startedAt)) ?_
  refine .cons (.intro (Json.quotes_quoted (by decide)) (spells_numberText h.finishedAt)) ?_
  refine .cons (.intro (Json.quotes_quoted (by decide))
    (Json.quotes_quoted (plain_attemptOutcomeText append.outcome)).spells) ?_
  exact spells_optional (by decide) h.exit

theorem getAttempts_append {entries entries' : List String}
    {ledger ledger' : List (AttemptRecord Json)} (h : getAttempts numerals entries = some ledger)
    (h' : getAttempts numerals entries' = some ledger') :
    getAttempts numerals (entries ++ entries') = some (ledger ++ ledger') := by
  rw [getAttempts] at h h' ⊢
  rw [List.mapM_append, h, h']
  rfl

theorem getAttempts_write {entries : List String} {ledger : List (AttemptRecord Json)}
    (h : getAttempts numerals entries = some ledger) {append : Append}
    (hheld : append.Held numerals) (hn : numerals.holds (entries.length + 1 : ℕ)) :
    getAttempts numerals (append.write numerals entries) =
      some (ledger ++ [append.record (entries.length + 1)]) := by
  apply getAttempts_append h
  rw [getAttempts, List.mapM_cons, parse_attemptText hheld hn, Option.bind_some, attemptOf_members]
  rfl

theorem length_getAttempts {entries : List String} {ledger : List (AttemptRecord Json)}
    (h : getAttempts numerals entries = some ledger) : ledger.length = entries.length := by
  induction entries generalizing ledger with
  | nil =>
    obtain rfl : [] = ledger := Option.some.inj h
    rfl
  | cons entry entries ih =>
    rw [getAttempts, List.mapM_cons] at h
    cases hentry : (Json.parse numerals entry).bind attemptOf with
    | none => rw [hentry] at h; cases h
    | some record =>
      cases hrest : getAttempts numerals entries with
      | none =>
        rw [getAttempts] at hrest
        rw [hentry, hrest] at h
        cases h
      | some rest =>
        have hlen := ih hrest
        rw [getAttempts] at hrest
        rw [hentry, hrest] at h
        obtain rfl : record :: rest = ledger := Option.some.inj h
        rw [List.length_cons, List.length_cons, hlen]

/-- The typed ledger of the keyspace is what its texts say. -/
theorem getAttempts_appendAttempt {ks : Keyspace Json} {id : JobId} {entries : List String}
    (h : getAttempts numerals entries = some (ks.attempts id)) {append : Append}
    (hheld : append.Held numerals) (hn : numerals.holds (entries.length + 1 : ℕ)) :
    getAttempts numerals (append.write numerals entries) =
      some ((Redis.appendAttempt ks id append.outcome append.startedAt append.finishedAt
        append.exit).attempts id) := by
  rw [getAttempts_write h hheld hn, ← length_getAttempts h]
  simp [Redis.appendAttempt, Append.record]

/-- The entries of a ledger that a sequence of appends wrote. -/
theorem getAttempts_foldl {appends : List Append}
    (hheld : ∀ append ∈ appends, append.Held numerals)
    (hn : ∀ n ≤ appends.length, numerals.holds n) :
    getAttempts numerals (appends.foldl (Append.write numerals) []) =
      some (appends.mapIdx fun i append => append.record (i + 1)) := by
  induction appends using List.reverseRecOn with
  | nil => rfl
  | append_singleton appends append ih =>
    have ih := ih (fun a ha => hheld a (List.mem_append_left _ ha)) fun n hle => hn n (by simp; omega)
    have hlength := length_getAttempts ih
    rw [List.length_mapIdx] at hlength
    rw [List.foldl_append, List.foldl_cons, List.foldl_nil,
      getAttempts_write ih (hheld append (by simp)) (hn _ (by simp [hlength])), List.mapIdx_append,
      ← hlength]
    simp

/-! ## The outbox -/

def terminalText : TerminalState → String
  | .completed => "completed"
  | .failed => "failed"
  | .cancelled => "cancelled"

def terminalOf (text : String) : Option TerminalState :=
  [.completed, .failed, .cancelled].find? fun outcome => decide (terminalText outcome = text)

/-- `cjson.encode` of a string. -/
def cjsonEncode (s : String) : String := String.ofList (Json.quote Json.cjsonEscape s)

/-- What is behind the number of an outbox member. -/
def outboxBody (parentJson outcome exitJson failedReason : String) : String :=
  let ex := if exitJson = "" then "" else ",\"exit\":" ++ exitJson
  let fr := if failedReason = "" then "" else ",\"failedReason\":" ++ cjsonEncode failedReason
  "\x7b\"parent\":" ++ parentJson ++ ",\"outcome\":\"" ++ outcome ++ "\"" ++ ex ++ fr ++ "\x7d"

/-- `appendOutbox`: the member it adds, from the fields of the hash and the last number. -/
def appendOutbox (hget : String → Option String) (outboxSeq : ℕ) (outcome : String) :
    Option String :=
  let parentJson := (hget "parent").getD ""
  if parentJson = "" then none
  else
    let seq := outboxSeq + 1
    some (fmt seq ++ "\u0000" ++
      outboxBody parentJson outcome ((hget "exit").getD "") ((hget "failedReason").getD ""))

/-- An outbox entry as the driver returns it; the whole member is its id. -/
structure WireEntry where
  id : String
  flowName : String
  parentStoreKey : String
  report : FlowChildReport Json

/-- What follows the first NUL, all of a text without one. -/
def afterSeparator (text : String) : String :=
  match text.toList.dropWhile fun c => decide (c ≠ Char.ofNat 0) with
  | [] => text
  | _ :: body => String.ofList body

variable (numerals)

def toOutboxEntry (text : String) : Option WireEntry := do
  let parsed ← Json.parse numerals (afterSeparator text)
  let body ← asMembers parsed
  let parent ← (member "parent" body).bind parentOf
  let outcomeText ← (member "outcome" body).bind asString
  let outcome ← terminalOf outcomeText
  let failedReason ← property asString (member "failedReason" body)
  some
    { id := text
      flowName := parent.flowName
      parentStoreKey := parent.parentStoreKey
      report :=
        { flowId := parent.flowId
          childKey := parent.childKey
          outcome
          exit := member "exit" body
          failedReason } }

variable {numerals}

theorem afterSeparator_member (seq : ℕ) (body : String) :
    afterSeparator (fmt seq ++ "\u0000" ++ body) = body := by
  have hdigits : ∀ c ∈ (fmt seq).toList, decide (c ≠ Char.ofNat 0) = true := by
    intro c hc
    have hnumeral : Json.isNumeral c = true := Json.isNumeral_of_mem_repr hc
    rw [decide_eq_true_eq]
    rintro rfl
    revert hnumeral
    decide
  rw [afterSeparator, String.toList_append, String.toList_append, List.append_assoc,
    List.dropWhile_append_of_pos hdigits]
  simp

theorem toList_outboxBody (parentJson outcome exitJson failedReason : String) :
    (outboxBody parentJson outcome exitJson failedReason).toList =
      Json.objectText
        ([(Json.quoted "parent", parentJson.toList),
          (Json.quoted "outcome", Json.quoted outcome)] ++
        ((if exitJson = "" then [] else [(Json.quoted "exit", exitJson.toList)]) ++
        if failedReason = "" then []
        else [(Json.quoted "failedReason", (cjsonEncode failedReason).toList)])) := by
  unfold outboxBody
  by_cases hexit : exitJson = "" <;> by_cases hreason : failedReason = "" <;>
    simp only [hexit, hreason, if_true, if_false, Json.objectText, Json.memberText, Json.commas,
      Json.quoted, String.toList_append, List.cons_append, List.nil_append, List.append_assoc,
      List.map_cons, List.map_nil] <;>
    simp

theorem plain_terminalText (outcome : TerminalState) :
    (terminalText outcome).toList.all Json.isPlain = true := by
  cases outcome <;> decide

/-- The members of a report. -/
def reportMembers (parent : ParentEnvelope) (outcome : TerminalState) (exit : Option Json)
    (failedReason : Option String) : List (String × Json) :=
  ("parent", parentJson parent) :: ("outcome", .str (terminalText outcome)) ::
    (optional "exit" exit ++ optional "failedReason" (failedReason.map .str))

theorem spells_reason (failedReason : String) :
    List.Forall₂ (Json.SpellsMember numerals)
      (if failedReason = "" then []
        else [(Json.quoted "failedReason", (cjsonEncode failedReason).toList)])
      (optional "failedReason" ((optionalString failedReason).map .str)) := by
  by_cases h : failedReason = ""
  · simp [h, optionalString, optional]
  · rw [if_neg h, optionalString, if_neg h, cjsonEncode, String.toList_ofList]
    exact .cons (.intro (Json.quotes_quoted (by decide))
      (Json.quotes_quote Json.escapes_cjsonEscape failedReason).spells) .nil

/-- The body a script splices is the object of its report. -/
theorem parse_outboxBody {parent : ParentEnvelope} (hparent : (parentJson parent).Held numerals)
    (outcome : TerminalState) {exit : Option Json} (hexit : ∀ v ∈ exit, v.Held numerals)
    (failedReason : String) :
    Json.parse numerals (outboxBody ((parentJson parent).stringify numerals) (terminalText outcome)
      (textOr (fun v => v.stringify numerals) exit) failedReason) =
        some (.obj (reportMembers parent outcome exit (optionalString failedReason))) := by
  rw [Json.parse]
  apply Json.Spells.parseChars
  rw [toList_outboxBody, List.cons_append, List.cons_append, List.nil_append, reportMembers]
  apply Json.spells_object
  refine .cons (.intro (Json.quotes_quoted (by decide)) (spells_toList_stringify hparent)) ?_
  refine .cons (.intro (Json.quotes_quoted (by decide))
    (Json.quotes_quoted (plain_terminalText outcome)).spells) ?_
  exact List.rel_append (spells_optional (by decide) hexit) (spells_reason failedReason)

theorem terminalOf_terminalText (outcome : TerminalState) :
    terminalOf (terminalText outcome) = some outcome := by
  cases outcome <;> rfl

/-- The member that reports a hash is read back as the envelope, outcome, exit and reason in it. -/
theorem toOutboxEntry_appendOutbox {hget : String → Option String} {parent : ParentEnvelope}
    {exit : Option Json} {failedReason : String}
    (hheld : (parentJson parent).Held numerals) (hheld' : ∀ v ∈ exit, v.Held numerals)
    (hparent : hget "parent" = some ((parentJson parent).stringify numerals))
    (hexit : hget "exit" = some (textOr (fun v => v.stringify numerals) exit))
    (hreason : hget "failedReason" = some failedReason) (outboxSeq : ℕ) (outcome : TerminalState) :
    ∃ text, appendOutbox hget outboxSeq (terminalText outcome) = some text ∧
      toOutboxEntry numerals text = some
        { id := text, flowName := parent.flowName, parentStoreKey := parent.parentStoreKey,
          report := { flowId := parent.flowId, childKey := parent.childKey, outcome, exit,
                      failedReason := optionalString failedReason } } := by
  refine ⟨fmt (outboxSeq + 1 : ℕ) ++ "\u0000" ++ outboxBody ((parentJson parent).stringify numerals)
    (terminalText outcome) (textOr (fun v => v.stringify numerals) exit) failedReason, ?_, ?_⟩
  · rw [appendOutbox, hparent, hexit, hreason, Option.getD_some, Option.getD_some, Option.getD_some]
    exact if_neg (stringify_ne_empty _)
  · have hfailed : property asString ((optionalString failedReason).map Json.str) =
        some (optionalString failedReason) := property_map fun _ _ => rfl
    rw [toOutboxEntry, afterSeparator_member, parse_outboxBody hheld outcome hheld']
    simp [asMembers, reportMembers, member_append, parentOf_parentJson, asString,
      terminalOf_terminalText, hfailed]

end EffectMq.Redis.Wire
