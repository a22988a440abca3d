import EffectMq.Batching
import EffectMq.DrizzleJobStore.Tables
import EffectMq.Library.Chunks
import EffectMq.Library.Scatter

/-! # The Postgres driver: enqueue and enqueueMany

`insertJob`, `enqueueDeduped`, `enqueueOne`, `insertBatch` and `enqueueMany` of `DrizzleJobStore.ts`. A
call runs at one clock value and nothing else runs meanwhile. A statement that Postgres refuses, and a
transaction with such a statement, leaves the database as it was.
-/

namespace EffectMq.Drizzle
open Call (Simulates)
set_option autoImplicit false
set_option maxHeartbeats 250000

variable {V : Type}

/-! ## The database -/

/-- The tables, the identity sequence that numbers the job rows, and how many ids the generator of the
client has given. -/
structure Db (V : Type) where
  tables : Tables V
  seq : ℕ
  draws : ℕ
  drawn : ∀ id row, tables.jobs.get? id = some row → row.seq ≤ seq

/-- `nextval`. -/
def Db.next (db : Db V) : Db V :=
  { db with
    seq := db.seq + 1
    drawn := fun id row h => (db.drawn id row h).trans (Nat.le_succ _) }

/-- The row of a new job. -/
def jobRow (id : JobId) (request : EnqueueRequest V) (now : Millis) (seq : ℕ) : JobRow V where
  id := id
  name := request.name
  queue := request.queue
  payload := request.payload
  metadata := request.metadata
  state := if 0 < request.delayMs then .delayed else .waiting
  priority := request.priority
  attemptsMax := request.attemptsMax
  attemptsMade := 0
  stalledCount := 0
  backoff := request.backoff
  keep := request.keep
  timeoutMs := request.timeoutMs
  cancelRequested := false
  dedupeKey := request.dedupe.map (·.key)
  trace := request.trace
  parent := request.parent
  flow := none
  runAt := now + max 0 request.delayMs
  enqueuedAt := now
  processedAt := none
  finishedAt := none
  exit := none
  failedReason := none
  seq := seq
  lockToken := none
  lockExpiresAt := none

def Db.insertRow (db : Db V) (id : JobId) (request : EnqueueRequest V) (now : Millis) : Db V :=
  { db with
    tables := { db.tables with
      jobs := db.tables.jobs.set id (jobRow id request now (db.seq + 1)) }
    seq := db.seq + 1
    drawn := fun id' row h => by
      rw [JsMap.get?_set] at h
      split at h
      · cases h
        exact le_rfl
      · exact (db.drawn id' row h).trans (Nat.le_succ _) }

/-- Latest-wins: the columns a replace rewrites. -/
def replaceRow (row : JobRow V) (request : EnqueueRequest V) (now : Millis) : JobRow V :=
  { row with
    payload := request.payload, metadata := request.metadata, priority := request.priority,
    attemptsMax := request.attemptsMax, backoff := request.backoff, keep := request.keep,
    timeoutMs := request.timeoutMs, trace := request.trace, runAt := now + max 0 request.delayMs }

def Db.replaceJob (db : Db V) (id : JobId) (request : EnqueueRequest V) (now : Millis) : Db V :=
  { db with
    tables := { db.tables with
      jobs := db.tables.jobs.modify id fun row => replaceRow row request now }
    drawn := fun id' row h => by
      rw [JsMap.get?_modify] at h
      split at h
      · obtain ⟨row', hrow', rfl⟩ := Option.map_eq_some_iff.mp h
        exact db.drawn _ row' hrow'
      · exact db.drawn id' row h }

/-- A write to the dedup table. -/
def Db.setDedupe (db : Db V) (dedupe : JsMap (String × String) DedupeRow) : Db V :=
  { db with tables := { db.tables with dedupe }, drawn := db.drawn }

def DedupeRow.live (row : DedupeRow) (now : Millis) : Bool :=
  row.windowExpiresAt.any fun t => decide (now < t)

def Db.setWindow (db : Db V) (key : String × String) (windowEnd : Option Millis) : Db V :=
  match windowEnd with
  | none => db
  | some t =>
    db.setDedupe (db.tables.dedupe.modify key fun row => { row with windowExpiresAt := some t })

/-- The upsert that locks the entry's row; a fresh placeholder names no job. -/
def Db.lockEntry (db : Db V) (key : String × String) : Db V :=
  if db.tables.dedupe.has key then db
  else db.setDedupe (db.tables.dedupe.set key ⟨"", none⟩)

/-! ## Enqueue -/

/-- The options of `make` that inserting reads, and what it relies on of Postgres: which rows a table
takes (`accepts`: no NUL in a text, numbers and dates in range, the extra columns not null), which
readings are dates, and the order in which a statement lists what it returns. -/
structure Driver (V : Type) where
  idGenerator : Option (ℕ → EnqueueRequest V → JobId)
  accepts : JobId → EnqueueRequest V → Millis → Bool
  dates : Millis → Bool
  returning : List JobId → List JobId
  returning_perm : ∀ ids, (returning ids).Perm ids

namespace Driver

variable (driver : Driver V) (now : Millis)

/-- One row of `INSERT … ON CONFLICT (id) DO NOTHING`: its number is drawn either way. -/
def insertOne (acc : List JobId × Db V) (row : JobId × EnqueueRequest V) : List JobId × Db V :=
  let (inserted, db) := acc
  if db.tables.jobs.has row.1 then (inserted, db.next)
  else (inserted ++ [row.1], db.insertRow row.1 row.2 now)

/-- The statement, with the ids it returns. -/
def insertRows (message : String) (rows : List (JobId × EnqueueRequest V)) (db : Db V) :
    Except StoreError (List JobId × Db V) :=
  if rows.all fun row => driver.accepts row.1 row.2 now then
    let (inserted, db) := rows.foldl (insertOne now) ([], db)
    .ok (driver.returning inserted, db)
  else .error (.jobStoreError message)

/-- The caller's id, a generated one, or `'j-' || nextval`. -/
def resolveId (request : EnqueueRequest V) (db : Db V) : JobId × Db V :=
  match request.id, driver.idGenerator with
  | some id, _ => (id, db)
  | none, some generate => (generate db.draws request, { db with draws := db.draws + 1 })
  | none, none => ("j-" ++ Nat.repr (db.seq + 1), db.next)

/-- In so many tries. -/
def insertJob (request : EnqueueRequest V) :
    ℕ → Db V → Except StoreError (EnqueueResult × Db V)
  | 0, _ => .error (.jobStoreError "enqueue failed: could not generate a unique job id")
  | tries + 1, db =>
    let (id, db) := driver.resolveId request db
    match driver.insertRows now "enqueue failed" [(id, request)] db with
    | .error e => .error e
    | .ok (returned, db) =>
      match returned.head?, request.id with
      | some inserted, _ => .ok (⟨inserted, false⟩, db)
      | none, some id => .ok (⟨id, true⟩, db)
      | none, none => insertJob request tries db

/-- `new Date(now.getTime() + policy.ttlMs)`; no date is infinite. -/
def windowEnd (ttlMs : Option (WithTop Millis)) : Except StoreError (Option Millis) :=
  match ttlMs with
  | none => .ok none
  | some ⊤ => .error (.jobStoreError "enqueue failed")
  | some (ttl : Millis) =>
    if driver.dates (now + ttl) then .ok (some (now + ttl))
    else .error (.jobStoreError "enqueue failed")

/-- The dedup decision tree; `none` lets the new job take over the key. -/
def dedupeDecision (request : EnqueueRequest V) (policy : DedupePolicy) (db : Db V) :
    Option (Except StoreError (EnqueueResult × Db V)) :=
  let key := (request.name, policy.key)
  match (db.tables.dedupe.get? key).filter fun entry => decide (entry.jobId ≠ "") with
  | none => none
  | some entry =>
    let keyedState := (db.tables.jobs.get? entry.jobId).map (·.state)
    if policy.replace = true ∧ keyedState = some .delayed then
      if driver.accepts entry.jobId request now then
        some ((driver.windowEnd now policy.ttlMs).map fun windowEnd =>
          (⟨entry.jobId, true⟩, (db.replaceJob entry.jobId request now).setWindow key windowEnd))
      else some (.error (.jobStoreError "enqueue failed"))
    else if entry.live now then
      some ((driver.windowEnd now (if policy.extend then policy.ttlMs else none)).map fun windowEnd =>
        (⟨entry.jobId, true⟩, db.setWindow key windowEnd))
    else if entry.windowExpiresAt = none ∧ (keyedState.any fun state => !state.isTerminal) then
      some (.ok (⟨entry.jobId, true⟩, db))
    else none

/-- One transaction. -/
def enqueueDeduped (request : EnqueueRequest V) (policy : DedupePolicy) (db : Db V) :
    Except StoreError (EnqueueResult × Db V) :=
  match request.id.filter db.tables.jobs.has with
  | some id => .ok (⟨id, true⟩, db)
  | none =>
    let key := (request.name, policy.key)
    let db := db.lockEntry key
    match driver.dedupeDecision now request policy db with
    | some answer => answer
    | none =>
      (driver.insertJob now request 5 db).bind fun inserted =>
        if inserted.1.duplicate then .ok inserted
        else
          (driver.windowEnd now policy.ttlMs).map fun windowExpiresAt =>
            (inserted.1, inserted.2.setDedupe (inserted.2.tables.dedupe.set key
              ⟨inserted.1.id, windowExpiresAt⟩))

def enqueueOne (request : EnqueueRequest V) : Call StoreError (Db V) EnqueueResult :=
  match request.dedupe with
  | some policy => .atomic (driver.enqueueDeduped now request policy)
  | none => .atomic (driver.insertJob now request 5)

/-! ## Batches -/

structure PendingItem (V : Type) where
  request : EnqueueRequest V
  index : ℕ
  id : Option JobId

/-- An item with its id resolved. -/
structure ResolvedItem (V : Type) where
  request : EnqueueRequest V
  index : ℕ
  id : JobId

def ResolvedItem.row (item : ResolvedItem V) : JobId × EnqueueRequest V := (item.id, item.request)

/-- A pass over the pending items: the ids met so far, the items to insert and those left over. -/
structure Screened (V : Type) where
  results : List (Option EnqueueResult)
  seen : List JobId
  toInsert : List (ResolvedItem V)
  stillPending : List (PendingItem V)

structure Round (V : Type) where
  results : List (Option EnqueueResult)
  pending : List (PendingItem V)

/-- An item without an id gets one: from the generator, or from the sequence. -/
def assignId (acc : List (PendingItem V) × Db V) (item : PendingItem V) :
    List (PendingItem V) × Db V :=
  let (items, db) := acc
  match item.id with
  | some _ => (items ++ [item], db)
  | none =>
    let (id, db) := driver.resolveId item.request db
    (items ++ [{ item with id := some id }], db)

/-- Only an id's first occurrence inserts: a later explicit repeat is a duplicate, and any other
repeat draws again. -/
def screenItem (acc : Screened V) (item : PendingItem V) : Screened V :=
  match item.id with
  | none => acc
  | some id =>
    if id ∈ acc.seen then
      if item.request.id.isSome then
        { acc with results := acc.results.set item.index (some ⟨id, true⟩) }
      else { acc with stillPending := acc.stillPending ++ [{ item with id := none }] }
    else
      { acc with
        seen := acc.seen ++ [id]
        toInsert := acc.toInsert ++ [⟨item.request, item.index, id⟩] }

def placeItem (inserted : List JobId) (acc : Round V) (item : ResolvedItem V) : Round V :=
  if item.id ∈ inserted then
    { acc with results := acc.results.set item.index (some ⟨item.id, false⟩) }
  else if item.request.id.isSome then
    { acc with results := acc.results.set item.index (some ⟨item.id, true⟩) }
  else { acc with pending := acc.pending ++ [⟨item.request, item.index, none⟩] }

/-- One `INSERT` of at most 500 rows. What it returns is read as a set. -/
def insertChunk (acc : Round V) (chunk : List (ResolvedItem V)) :
    Call StoreError (Db V) (Round V) :=
  .atomic fun db =>
    (driver.insertRows now "enqueueMany failed" (chunk.map ResolvedItem.row) db).map fun inserted =>
      (chunk.foldl (placeItem inserted.1) acc, inserted.2)

def insertRound (acc : Round V) : Call StoreError (Db V) (Round V) := fun db =>
  let (pending, db) := acc.pending.foldl driver.assignId ([], db)
  let screened := pending.foldl screenItem ⟨acc.results, [], [], []⟩
  (screened.toInsert.chunks 500).foldlM (driver.insertChunk now)
    ⟨screened.results, screened.stillPending⟩ db

/-- In so many rounds, until no item is pending. -/
def insertRounds : ℕ → Round V → Call StoreError (Db V) (List (Option EnqueueResult))
  | 0, acc => pure acc.results
  | rounds + 1, acc =>
    if acc.pending.isEmpty then pure acc.results
    else driver.insertRound now acc >>= insertRounds rounds

def insertBatch (requests : List (EnqueueRequest V)) : Call StoreError (Db V) (List EnqueueResult) :=
  driver.insertRounds now 5 ⟨List.replicate requests.length none,
    (requests.zip (List.range requests.length)).map fun item =>
      ⟨item.1, item.2, item.1.id⟩⟩ >>= fun results =>
    match results.mapM id with
    | some resolved => pure resolved
    | none => throw (.jobStoreError "enqueueMany failed: could not generate unique job ids")

/-- Dedup items go through `enqueueOne` in order, the runs of plain items between them in batches. -/
def enqueueMany (requests : List (EnqueueRequest V)) : Call StoreError (Db V) (List EnqueueResult) :=
  enqueueManyWith (driver.insertBatch now) (driver.enqueueOne now) requests

end Driver

/-! ## Databases that differ in the numbers drawn -/

/-- The job is ahead of the other in FIFO order. -/
def Db.Before (db : Db V) (id id' : JobId) : Prop :=
  ∃ row row', db.tables.jobs.get? id = some row ∧ db.tables.jobs.get? id' = some row' ∧
    row.seq < row'.seq

def JobRow.unnumbered (row : JobRow V) : JobRow V := { row with seq := 0 }

/-- The same tables up to the numbers of the job rows, which order the jobs alike. -/
structure Db.Alike (db db' : Db V) : Prop where
  rows : ∀ id, (db.tables.jobs.get? id).map JobRow.unnumbered =
    (db'.tables.jobs.get? id).map JobRow.unnumbered
  before : ∀ id id', db.Before id id' ↔ db'.Before id id'
  dedupe : db.tables.dedupe = db'.tables.dedupe
  attempts : db.tables.attempts = db'.tables.attempts
  flowChildren : db.tables.flowChildren = db'.tables.flowChildren
  flowOutbox : db.tables.flowOutbox = db'.tables.flowOutbox
  outboxSeq : db.tables.outboxSeq = db'.tables.outboxSeq

theorem Db.before_insertRow {db : Db V} {id : JobId} (hfresh : db.tables.jobs.get? id = none)
    (request : EnqueueRequest V) (now : Millis) (id₁ id₂ : JobId) :
    (db.insertRow id request now).Before id₁ id₂ ↔
      id₁ ≠ id ∧ (db.Before id₁ id₂ ∨ id₂ = id ∧ (db.tables.jobs.get? id₁).isSome) := by
  have hget : ∀ id', (db.insertRow id request now).tables.jobs.get? id' =
      if id' = id then some (jobRow id request now (db.seq + 1)) else db.tables.jobs.get? id' :=
    fun _ => JsMap.get?_set ..
  constructor
  · rintro ⟨row, row', hrow, hrow', hlt⟩
    rw [hget] at hrow hrow'
    have hbound : row'.seq ≤ db.seq + 1 :=
      (db.insertRow id request now).drawn id₂ row' ((hget id₂).trans hrow')
    split at hrow
    · -- The row that came last is ahead of none.
      cases hrow
      exact absurd hlt (not_lt_of_ge hbound)
    next hne =>
      refine ⟨hne, ?_⟩
      split at hrow'
      next heq => exact .inr ⟨heq, Option.isSome_iff_exists.mpr ⟨row, hrow⟩⟩
      next => exact .inl ⟨row, row', hrow, hrow', hlt⟩
  · rintro ⟨hne, ⟨row, row', hrow, hrow', hlt⟩ | ⟨rfl, hsome⟩⟩
    · have hne' : id₂ ≠ id := by
        rintro rfl
        rw [hfresh] at hrow'
        exact absurd hrow' (by simp)
      exact ⟨row, row', by rw [hget, if_neg hne, hrow], by rw [hget, if_neg hne', hrow'], hlt⟩
    · obtain ⟨row, hrow⟩ := Option.isSome_iff_exists.mp hsome
      exact ⟨row, _, by rw [hget, if_neg hne, hrow], by rw [hget, if_pos rfl],
        Nat.lt_succ_of_le (db.drawn id₁ row hrow)⟩

theorem Db.before_iff {db : Db V} {id id' : JobId} :
    db.Before id id' ↔ ∃ n n', (db.tables.jobs.get? id).map (·.seq) = some n ∧
      (db.tables.jobs.get? id').map (·.seq) = some n' ∧ n < n' := by
  simp only [Option.map_eq_some_iff]
  constructor
  · rintro ⟨row, row', hrow, hrow', hlt⟩
    exact ⟨_, _, ⟨row, hrow, rfl⟩, ⟨row', hrow', rfl⟩, hlt⟩
  · rintro ⟨_, _, ⟨row, hrow, rfl⟩, ⟨row', hrow', rfl⟩, hlt⟩
    exact ⟨row, row', hrow, hrow', hlt⟩

theorem Db.before_replaceJob (db : Db V) (id : JobId) (request : EnqueueRequest V) (now : Millis)
    (id₁ id₂ : JobId) : (db.replaceJob id request now).Before id₁ id₂ ↔ db.Before id₁ id₂ := by
  have hseq : ∀ id', ((db.replaceJob id request now).tables.jobs.get? id').map (·.seq) =
      (db.tables.jobs.get? id').map (·.seq) := by
    intro id'
    simp only [Db.replaceJob, JsMap.get?_modify]
    split
    next heq =>
      rw [Option.map_map, heq]
      rfl
    next => rfl
  rw [before_iff, before_iff, hseq, hseq]

namespace Db.Alike

variable {db db' : Db V}

theorem refl (db : Db V) : db.Alike db := ⟨fun _ => rfl, fun _ _ => .rfl, rfl, rfl, rfl, rfl, rfl⟩

variable (h : db.Alike db')

include h

/-- Numbers drawn to no row make no difference. -/
theorem of_tables {left right : Db V} (hleft : left.tables = db.tables)
    (hright : right.tables = db'.tables) : left.Alike right := by
  refine ⟨?_, ?_, ?_, ?_, ?_, ?_, ?_⟩
  · rw [hleft, hright]
    exact h.rows
  · unfold Before
    rw [hleft, hright]
    exact h.before
  all_goals rw [hleft, hright]
  · exact h.dedupe
  · exact h.attempts
  · exact h.flowChildren
  · exact h.flowOutbox
  · exact h.outboxSeq

theorem isSome (id : JobId) :
    (db.tables.jobs.get? id).isSome = (db'.tables.jobs.get? id).isSome := by
  have hrow := congrArg Option.isSome (h.rows id)
  rwa [Option.isSome_map, Option.isSome_map] at hrow

theorem has : db.tables.jobs.has = db'.tables.jobs.has := funext h.isSome

theorem state (id : JobId) :
    (db.tables.jobs.get? id).map (·.state) = (db'.tables.jobs.get? id).map (·.state) := by
  have hrow := congrArg (Option.map fun row : JobRow V => row.state) (h.rows id)
  rwa [Option.map_map, Option.map_map] at hrow

theorem insertRow {id : JobId} (hfresh : db.tables.jobs.get? id = none) (request : EnqueueRequest V)
    (now : Millis) : (db.insertRow id request now).Alike (db'.insertRow id request now) := by
  have hfresh' : db'.tables.jobs.get? id = none := by
    rw [← Option.not_isSome_iff_eq_none, ← h.isSome, hfresh]
    simp
  refine ⟨fun id' => ?_, fun id₁ id₂ => ?_, h.dedupe, h.attempts, h.flowChildren, h.flowOutbox,
    h.outboxSeq⟩
  · simp only [Db.insertRow, JsMap.get?_set]
    split
    · rfl
    · exact h.rows id'
  · rw [before_insertRow hfresh, before_insertRow hfresh', h.before, h.isSome]

theorem replaceJob (id : JobId) (request : EnqueueRequest V) (now : Millis) :
    (db.replaceJob id request now).Alike (db'.replaceJob id request now) := by
  refine ⟨fun id' => ?_, fun id₁ id₂ => ?_, h.dedupe, h.attempts, h.flowChildren, h.flowOutbox,
    h.outboxSeq⟩
  · simp only [Db.replaceJob, JsMap.get?_modify]
    split
    · have hcomm : JobRow.unnumbered ∘ (fun row : JobRow V => replaceRow row request now) =
          (fun row : JobRow V => replaceRow row request now) ∘ JobRow.unnumbered := rfl
      rw [Option.map_map, Option.map_map, hcomm, ← Option.map_map, ← Option.map_map, h.rows id]
    · exact h.rows id'
  · rw [before_replaceJob, before_replaceJob, h.before]

theorem setDedupe (dedupe : JsMap (String × String) DedupeRow) :
    (db.setDedupe dedupe).Alike (db'.setDedupe dedupe) :=
  ⟨h.rows, h.before, rfl, h.attempts, h.flowChildren, h.flowOutbox, h.outboxSeq⟩

theorem setWindow (key : String × String) (windowEnd : Option Millis) :
    (db.setWindow key windowEnd).Alike (db'.setWindow key windowEnd) := by
  unfold Db.setWindow
  cases windowEnd with
  | none => exact h
  | some t =>
    rw [← h.dedupe]
    exact h.setDedupe _

theorem lockEntry (key : String × String) : (db.lockEntry key).Alike (db'.lockEntry key) := by
  unfold Db.lockEntry
  rw [← h.dedupe]
  split
  · exact h
  · exact h.setDedupe _

end Db.Alike

/-! ## Rows under the callers' ids -/

/-- A row that conflicts only draws a number. -/
def Db.put (now : Millis) (db : Db V) (row : JobId × EnqueueRequest V) : Db V :=
  if db.tables.jobs.has row.1 then db.next else db.insertRow row.1 row.2 now

theorem Db.has_put (now : Millis) (db : Db V) (row : JobId × EnqueueRequest V) (id : JobId) :
    (db.put now row).tables.jobs.has id = (decide (id = row.1) || db.tables.jobs.has id) := by
  unfold Db.put
  split
  next hhas =>
    change db.tables.jobs.has id = _
    by_cases heq : id = row.1
    · rw [heq, hhas, Bool.or_true]
    · rw [decide_eq_false heq, Bool.false_or]
  next =>
    change ((db.tables.jobs.set row.1 _).get? id).isSome = _
    rw [JsMap.get?_set]
    by_cases heq : id = row.1
    · simp [heq]
    · simp [heq, JsMap.has]

theorem Db.Alike.put {db db' : Db V} (h : db.Alike db') (now : Millis)
    (row : JobId × EnqueueRequest V) : (db.put now row).Alike (db'.put now row) := by
  unfold Db.put
  rw [← h.has]
  split
  next => exact h.of_tables rfl rfl
  next hhas => exact h.insertRow (JsMap.has_eq_false.mp (by simpa using hhas)) row.2 now

namespace Driver

variable (driver : Driver V) (now : Millis)

theorem insertOne_eq (acc : List JobId × Db V) (row : JobId × EnqueueRequest V) :
    insertOne now acc row =
      (acc.1 ++ if acc.2.tables.jobs.has row.1 then [] else [row.1], acc.2.put now row) := by
  unfold insertOne Db.put
  dsimp only
  split
  · rw [List.append_nil]
  · rfl

/-- Rows of different ids: those that were free are inserted. -/
theorem insertOne_foldl {rows : List (JobId × EnqueueRequest V)}
    (hnodup : (rows.map Prod.fst).Nodup) (inserted : List JobId) (db : Db V) :
    rows.foldl (insertOne now) (inserted, db) =
      (inserted ++ (rows.map Prod.fst).filter fun id => !db.tables.jobs.has id,
        rows.foldl (Db.put now) db) := by
  induction rows generalizing inserted db with
  | nil => simp
  | cons row rows ih =>
    rw [List.map_cons, List.nodup_cons] at hnodup
    have hothers : (rows.map Prod.fst).filter (fun id => !(db.put now row).tables.jobs.has id) =
        (rows.map Prod.fst).filter fun id => !db.tables.jobs.has id := by
      refine List.filter_congr fun id hid => ?_
      have hne : id ≠ row.1 := fun heq => hnodup.1 (heq ▸ hid)
      rw [Db.has_put, decide_eq_false hne, Bool.false_or]
    rw [List.foldl_cons, insertOne_eq, ih hnodup.2, hothers, List.map_cons, List.foldl_cons]
    cases hhas : db.tables.jobs.has row.1 with
    | true => simp [hhas]
    | false => simp [hhas]

theorem insertRows_accepted {message : String} {rows : List (JobId × EnqueueRequest V)}
    (hnodup : (rows.map Prod.fst).Nodup)
    (haccepts : ∀ row ∈ rows, driver.accepts row.1 row.2 now = true) (db : Db V) :
    driver.insertRows now message rows db =
      .ok (driver.returning ((rows.map Prod.fst).filter fun id => !db.tables.jobs.has id),
        rows.foldl (Db.put now) db) := by
  unfold insertRows
  rw [if_pos (List.all_eq_true.mpr haccepts), insertOne_foldl now hnodup, List.nil_append]

/-- One row under the caller's id. -/
theorem insertJob_explicit {request : EnqueueRequest V} {id : JobId} (hid : request.id = some id)
    (db : Db V) :
    driver.insertJob now request 5 db =
      if driver.accepts id request now then
        .ok (⟨id, db.tables.jobs.has id⟩, db.put now (id, request))
      else .error (.jobStoreError "enqueue failed") := by
  have hresolve : driver.resolveId request db = (id, db) := by
    unfold resolveId
    rw [hid]
  unfold insertJob
  simp only [hresolve]
  by_cases haccepts : driver.accepts id request now = true
  · have hrows : driver.insertRows now "enqueue failed" [(id, request)] db = _ :=
      driver.insertRows_accepted now (by simp)
        (fun row hrow => by rw [List.mem_singleton.mp hrow]; exact haccepts) db
    rw [hrows, if_pos haccepts]
    cases hhas : db.tables.jobs.has id with
    | true =>
      have hnone : driver.returning [] = [] := List.perm_nil.mp (driver.returning_perm [])
      simp [hhas, hnone, hid]
    | false =>
      have hone : driver.returning [id] = [id] :=
        List.perm_singleton.mp (driver.returning_perm [id])
      simp [hhas, hone]
  · have hrows : driver.insertRows now "enqueue failed" [(id, request)] db =
        .error (.jobStoreError "enqueue failed") := by
      unfold insertRows
      simp [haccepts]
    rw [hrows, if_neg haccepts]

/-! ## One item on alike databases -/

theorem insertJob_alike {request : EnqueueRequest V} {id : JobId} (hid : request.id = some id)
    {db db' : Db V} (h : db.Alike db') :
    (∃ result left left', driver.insertJob now request 5 db = .ok (result, left) ∧
      driver.insertJob now request 5 db' = .ok (result, left') ∧ left.Alike left') ∨
    ∃ e, driver.insertJob now request 5 db = .error e ∧
      driver.insertJob now request 5 db' = .error e := by
  rw [driver.insertJob_explicit now hid, driver.insertJob_explicit now hid, h.has]
  split
  · exact .inl ⟨_, _, _, rfl, rfl, h.put now _⟩
  · exact .inr ⟨_, rfl, rfl⟩

/-- The decision tree reads the entry and the state of the keyed job. -/
theorem dedupeDecision_alike (request : EnqueueRequest V) (policy : DedupePolicy) {db db' : Db V}
    (h : db.Alike db') :
    (driver.dedupeDecision now request policy db = none ∧
      driver.dedupeDecision now request policy db' = none) ∨
    (∃ result left left', driver.dedupeDecision now request policy db = some (.ok (result, left)) ∧
      driver.dedupeDecision now request policy db' = some (.ok (result, left')) ∧
      left.Alike left') ∨
    ∃ e, driver.dedupeDecision now request policy db = some (.error e) ∧
      driver.dedupeDecision now request policy db' = some (.error e) := by
  unfold dedupeDecision
  dsimp only
  rw [← h.dedupe]
  cases (db.tables.dedupe.get? (request.name, policy.key)).filter
      fun entry => decide (entry.jobId ≠ "") with
  | none => exact .inl ⟨rfl, rfl⟩
  | some entry =>
    dsimp only
    rw [← h.state entry.jobId]
    split
    · split
      · cases driver.windowEnd now policy.ttlMs with
        | ok windowEnd => exact .inr (.inl ⟨_, _, _, rfl, rfl, (h.replaceJob ..).setWindow ..⟩)
        | error e => exact .inr (.inr ⟨e, rfl, rfl⟩)
      · exact .inr (.inr ⟨_, rfl, rfl⟩)
    · split
      · cases driver.windowEnd now (if policy.extend then policy.ttlMs else none) with
        | ok windowEnd => exact .inr (.inl ⟨_, _, _, rfl, rfl, h.setWindow ..⟩)
        | error e => exact .inr (.inr ⟨e, rfl, rfl⟩)
      · split
        · exact .inr (.inl ⟨_, _, _, rfl, rfl, h⟩)
        · exact .inl ⟨rfl, rfl⟩

theorem enqueueDeduped_alike {request : EnqueueRequest V} {id : JobId} (hid : request.id = some id)
    (policy : DedupePolicy) {db db' : Db V} (h : db.Alike db') :
    (∃ result left left', driver.enqueueDeduped now request policy db = .ok (result, left) ∧
      driver.enqueueDeduped now request policy db' = .ok (result, left') ∧ left.Alike left') ∨
    ∃ e, driver.enqueueDeduped now request policy db = .error e ∧
      driver.enqueueDeduped now request policy db' = .error e := by
  unfold enqueueDeduped
  rw [h.has]
  cases request.id.filter db'.tables.jobs.has with
  | some id => exact .inl ⟨_, _, _, rfl, rfl, h⟩
  | none =>
    dsimp only
    have hlocked := h.lockEntry (request.name, policy.key)
    rcases driver.dedupeDecision_alike now request policy hlocked with
      ⟨hnone, hnone'⟩ | ⟨result, left, left', hsome, hsome', hleft⟩ | ⟨e, herror, herror'⟩
    · rw [hnone, hnone']
      dsimp only
      rcases driver.insertJob_alike now hid hlocked with
        ⟨result, left, left', hok, hok', hleft⟩ | ⟨e, herror, herror'⟩
      · rw [hok, hok', Except.bind, Except.bind]
        split
        · exact .inl ⟨_, _, _, rfl, rfl, hleft⟩
        · rw [← hleft.dedupe]
          cases driver.windowEnd now policy.ttlMs with
          | ok windowEnd => exact .inl ⟨_, _, _, rfl, rfl, hleft.setDedupe _⟩
          | error e => exact .inr ⟨e, rfl, rfl⟩
      · rw [herror, herror']
        exact .inr ⟨e, rfl, rfl⟩
    · rw [hsome, hsome']
      exact .inl ⟨result, left, left', rfl, rfl, hleft⟩
    · rw [herror, herror']
      exact .inr ⟨e, rfl, rfl⟩

theorem enqueueOne_simulates {request : EnqueueRequest V} {id : JobId}
    (hid : request.id = some id) :
    Simulates Db.Alike (driver.enqueueOne now request) (driver.enqueueOne now request) := by
  unfold enqueueOne
  cases request.dedupe with
  | some policy => exact .atomic fun _ _ h => driver.enqueueDeduped_alike now hid policy h
  | none => exact .atomic fun _ _ h => driver.insertJob_alike now hid h

/-! ## A batch of plain items, one by one -/

/-- A request under an id of its caller; a plain one has a row that Postgres takes. -/
def Explicit (request : EnqueueRequest V) : Prop :=
  ∃ id, request.id = some id ∧ (request.dedupe = none → driver.accepts id request now = true)

def rowOf (request : EnqueueRequest V) : JobId × EnqueueRequest V := (request.id.getD "", request)

/-- What inserting under these ids answers: a duplicate is an id that is there or was met before. -/
def answers (has : JobId → Bool) : List JobId → List EnqueueResult
  | [] => []
  | id :: ids => ⟨id, has id⟩ :: answers (fun id' => decide (id' = id) || has id') ids

theorem length_answers (has : JobId → Bool) (ids : List JobId) :
    (answers has ids).length = ids.length := by
  induction ids generalizing has with
  | nil => rfl
  | cons id ids ih => exact congrArg (· + 1) (ih _)

theorem mapM_enqueueOne {requests : List (EnqueueRequest V)}
    (h : ∀ request ∈ requests, driver.Explicit now request ∧ request.dedupe = none) (db : Db V) :
    (requests.mapM (driver.enqueueOne now)) db =
      (.ok (answers db.tables.jobs.has (requests.map fun request => (rowOf request).1)),
        (requests.map rowOf).foldl (Db.put now) db) := by
  induction requests generalizing db with
  | nil => rfl
  | cons request requests ih =>
    obtain ⟨⟨id, hid, haccepts⟩, hplain⟩ := h request List.mem_cons_self
    have hrow : rowOf request = (id, request) := by rw [rowOf, hid]; rfl
    have hone : driver.enqueueOne now request db =
        (.ok ⟨id, db.tables.jobs.has id⟩, db.put now (id, request)) := by
      unfold enqueueOne Call.atomic
      rw [hplain]
      dsimp only
      rw [driver.insertJob_explicit now hid, if_pos (haccepts hplain)]
    have hhas : (db.put now (id, request)).tables.jobs.has =
        fun id' => decide (id' = id) || db.tables.jobs.has id' :=
      funext fun id' => Db.has_put now db (id, request) id'
    rw [List.mapM_cons, Call.bind_ok hone,
      Call.bind_ok (ih (fun r hr => h r (List.mem_cons_of_mem _ hr)) _), hhas]
    simp only [List.map_cons, List.foldl_cons, hrow, answers]
    rfl

/-! ### The pass over the items -/

/-- An item of a plain request as it enters the batch. -/
def Plain (item : PendingItem V) : Prop :=
  driver.Explicit now item.request ∧ item.request.dedupe = none ∧ item.id = item.request.id

def resolved (item : PendingItem V) : ResolvedItem V := ⟨item.request, item.index, item.id.getD ""⟩

/-- The items whose ids were not met before. -/
def firsts (seen : List JobId) : List (PendingItem V) → List (ResolvedItem V)
  | [] => []
  | item :: items =>
    if (resolved item).id ∈ seen then firsts seen items
    else resolved item :: firsts (seen ++ [(resolved item).id]) items

/-- What the others are answered. -/
def repeats (seen : List JobId) : List (PendingItem V) → List (ℕ × EnqueueResult)
  | [] => []
  | item :: items =>
    if (resolved item).id ∈ seen then
      (item.index, ⟨(resolved item).id, true⟩) :: repeats seen items
    else repeats (seen ++ [(resolved item).id]) items

theorem assignId_foldl {items : List (PendingItem V)} (h : ∀ item ∈ items, driver.Plain now item)
    (acc : List (PendingItem V) × Db V) :
    items.foldl driver.assignId acc = (acc.1 ++ items, acc.2) := by
  induction items generalizing acc with
  | nil => rw [List.append_nil]; rfl
  | cons item items ih =>
    obtain ⟨⟨id, hid, -⟩, -, hitem⟩ := h item List.mem_cons_self
    have hstep : driver.assignId acc item = (acc.1 ++ [item], acc.2) := by
      unfold assignId
      rw [hitem, hid]
    rw [List.foldl_cons, hstep, ih fun item hin => h item (List.mem_cons_of_mem _ hin)]
    simp

theorem screenItem_foldl {items : List (PendingItem V)} (h : ∀ item ∈ items, driver.Plain now item)
    (acc : Screened V) :
    items.foldl screenItem acc =
      { acc with
        results := acc.results.scatter (repeats acc.seen items)
        seen := acc.seen ++ (firsts acc.seen items).map (·.id)
        toInsert := acc.toInsert ++ firsts acc.seen items } := by
  induction items generalizing acc with
  | nil => simp [repeats, firsts]
  | cons item items ih =>
    obtain ⟨⟨id, hid, -⟩, -, hitem⟩ := h item List.mem_cons_self
    have hresolved : resolved item = ⟨item.request, item.index, id⟩ := by
      rw [resolved, hitem, hid]
      rfl
    have hstep : screenItem acc item =
        if id ∈ acc.seen then
          { acc with results := acc.results.set item.index (some ⟨id, true⟩) }
        else
          { acc with
            seen := acc.seen ++ [id]
            toInsert := acc.toInsert ++ [⟨item.request, item.index, id⟩] } := by
      unfold screenItem
      rw [hitem, hid]
      rfl
    rw [List.foldl_cons, hstep, ih fun item hin => h item (List.mem_cons_of_mem _ hin), repeats,
      firsts, hresolved]
    by_cases hseen : id ∈ acc.seen
    · simp [hseen]
    · simp [hseen]

theorem firsts_spec (seen : List JobId) (items : List (PendingItem V)) :
    ((firsts seen items).map (·.id)).Nodup ∧ ∀ item ∈ firsts seen items, item.id ∉ seen := by
  induction items generalizing seen with
  | nil => exact ⟨.nil, fun _ h => absurd h List.not_mem_nil⟩
  | cons item items ih =>
    rw [firsts]
    split
    next => exact ih seen
    next hfresh =>
      obtain ⟨hnodup, hnew⟩ := ih (seen ++ [(resolved item).id])
      have hlater : ∀ other ∈ firsts (seen ++ [(resolved item).id]) items,
          other.id ∉ seen ∧ other.id ≠ (resolved item).id := by
        intro other hother
        have hnot := hnew other hother
        rw [List.mem_append, not_or, List.mem_singleton] at hnot
        exact hnot
      rw [List.map_cons, List.nodup_cons]
      refine ⟨⟨fun hin => ?_, hnodup⟩, fun other hother => ?_⟩
      · obtain ⟨other, hother, hid⟩ := List.mem_map.mp hin
        exact (hlater other hother).2 hid
      · rcases List.mem_cons.mp hother with rfl | hother
        · exact hfresh
        · exact (hlater other hother).1

/-- An item to insert is one of the batch. -/
theorem mem_firsts {seen : List JobId} {items : List (PendingItem V)} {item : ResolvedItem V}
    (h : item ∈ firsts seen items) : ∃ pending ∈ items, item = resolved pending := by
  induction items generalizing seen with
  | nil => exact absurd h List.not_mem_nil
  | cons pending items ih =>
    rw [firsts] at h
    split at h
    next =>
      obtain ⟨other, hother, heq⟩ := ih h
      exact ⟨other, List.mem_cons_of_mem _ hother, heq⟩
    next =>
      rcases List.mem_cons.mp h with rfl | h
      · exact ⟨pending, List.mem_cons_self, rfl⟩
      · obtain ⟨other, hother, heq⟩ := ih h
        exact ⟨other, List.mem_cons_of_mem _ hother, heq⟩

/-- What an item to insert is answered. -/
def answer (has : JobId → Bool) (item : ResolvedItem V) : ℕ × EnqueueResult :=
  (item.index, ⟨item.id, has item.id⟩)

/-- The two kinds of answers are those of the items one by one. -/
theorem answers_perm (has : JobId → Bool) (seen : List JobId) (items : List (PendingItem V)) :
    (repeats seen items ++ (firsts seen items).map (answer has)).Perm
      ((items.map (·.index)).zip (answers (fun id => decide (id ∈ seen) || has id)
        (items.map fun item => (resolved item).id))) := by
  induction items generalizing seen with
  | nil => exact .refl _
  | cons item items ih =>
    rw [repeats, firsts, List.map_cons, List.map_cons, answers, List.zip_cons_cons]
    by_cases hseen : (resolved item).id ∈ seen
    · have hhas : (fun id => decide (id = (resolved item).id) || (decide (id ∈ seen) || has id)) =
          fun id => decide (id ∈ seen) || has id := by
        funext id
        by_cases heq : id = (resolved item).id
        · simp [heq, hseen]
        · simp [heq]
      rw [if_pos hseen, if_pos hseen, hhas, decide_eq_true hseen, Bool.true_or]
      exact (ih seen).cons _
    · have hhas : (fun id => decide (id = (resolved item).id) || (decide (id ∈ seen) || has id)) =
          fun id => decide (id ∈ seen ++ [(resolved item).id]) || has id := by
        funext id
        by_cases heq : id = (resolved item).id
        · simp [heq]
        · simp [heq]
      rw [if_neg hseen, if_neg hseen, hhas, decide_eq_false hseen, Bool.false_or, List.map_cons]
      exact List.perm_middle.trans ((ih _).cons _)

/-- Leaving the repeats out only leaves numbers undrawn. -/
theorem firsts_alike {seen : List JobId} {items : List (PendingItem V)} {db db' : Db V}
    (h : db.Alike db') (hseen : ∀ id ∈ seen, db'.tables.jobs.has id = true) :
    (((firsts seen items).map ResolvedItem.row).foldl (Db.put now) db).Alike
      ((items.map fun item => ((resolved item).id, item.request)).foldl (Db.put now) db') := by
  induction items generalizing seen db db' with
  | nil => exact h
  | cons item items ih =>
    rw [firsts, List.map_cons, List.foldl_cons]
    have hkeeps : ∀ id, db'.tables.jobs.has id = true →
        (db'.put now ((resolved item).id, item.request)).tables.jobs.has id = true := by
      intro id hhas
      rw [Db.has_put, hhas, Bool.or_true]
    split
    next hin =>
      have hput : db'.put now ((resolved item).id, item.request) = db'.next := by
        rw [Db.put, if_pos (hseen _ hin)]
      refine ih ?_ fun id hid => hkeeps id (hseen id hid)
      rw [hput]
      exact h.of_tables rfl rfl
    next =>
      rw [List.map_cons, List.foldl_cons]
      refine ih (h.put now _) fun id hid => ?_
      rcases List.mem_append.mp hid with hid | hlast
      · exact hkeeps id (hseen id hid)
      · rw [List.mem_singleton.mp hlast, Db.has_put]
        simp

/-! ### The statements -/

theorem placeItem_foldl {chunk : List (ResolvedItem V)}
    (h : ∀ item ∈ chunk, item.request.id.isSome = true) (inserted : List JobId) (acc : Round V) :
    chunk.foldl (placeItem inserted) acc =
      { acc with results :=
          acc.results.scatter (chunk.map (answer fun id => !decide (id ∈ inserted))) } := by
  induction chunk generalizing acc with
  | nil => rfl
  | cons item chunk ih =>
    have hstep : placeItem inserted acc item =
        { acc with results :=
            acc.results.set item.index (some ⟨item.id, !decide (item.id ∈ inserted)⟩) } := by
      unfold placeItem
      rw [if_pos (h item List.mem_cons_self)]
      by_cases hin : item.id ∈ inserted
      · simp [hin]
      · simp [hin]
    rw [List.foldl_cons, hstep, ih fun other hother => h other (List.mem_cons_of_mem _ hother)]
    rfl

/-- An item that can go into a statement. -/
def Insertable (item : ResolvedItem V) : Prop :=
  driver.accepts item.id item.request now = true ∧ item.request.id.isSome = true

theorem insertChunk_accepted {chunk : List (ResolvedItem V)}
    (hnodup : (chunk.map (·.id)).Nodup) (h : ∀ item ∈ chunk, driver.Insertable now item)
    (acc : Round V) (db : Db V) :
    driver.insertChunk now acc chunk db =
      (.ok { acc with results := acc.results.scatter (chunk.map (answer db.tables.jobs.has)) },
        (chunk.map ResolvedItem.row).foldl (Db.put now) db) := by
  have hids : (chunk.map ResolvedItem.row).map Prod.fst = chunk.map (·.id) := by
    rw [List.map_map]
    rfl
  have hrows : driver.insertRows now "enqueueMany failed" (chunk.map ResolvedItem.row) db = _ :=
    driver.insertRows_accepted now (by rwa [hids]) (fun row hrow => by
      obtain ⟨item, hitem, rfl⟩ := List.mem_map.mp hrow
      exact (h item hitem).1) db
  rw [hids] at hrows
  set inserted := driver.returning ((chunk.map (·.id)).filter fun id => !db.tables.jobs.has id)
    with hinserted
  have hanswers : chunk.map (answer fun id => !decide (id ∈ inserted)) =
      chunk.map (answer db.tables.jobs.has) := by
    refine List.map_congr_left fun item hitem => ?_
    have hmem : item.id ∈ inserted ↔ db.tables.jobs.has item.id = false := by
      rw [hinserted, (driver.returning_perm _).mem_iff, List.mem_filter]
      simp [List.mem_map_of_mem hitem]
    unfold answer
    cases hhas : db.tables.jobs.has item.id with
    | true => simp [hmem, hhas]
    | false => simp [hmem, hhas]
  unfold insertChunk Call.atomic
  dsimp only
  rw [hrows]
  change (Except.ok (chunk.foldl (placeItem inserted) acc), _) = _
  rw [placeItem_foldl fun item hitem => (h item hitem).2, hanswers]

theorem has_foldl_put (rows : List (JobId × EnqueueRequest V)) (db : Db V) (id : JobId) :
    (rows.foldl (Db.put now) db).tables.jobs.has id =
      (decide (id ∈ rows.map Prod.fst) || db.tables.jobs.has id) := by
  induction rows generalizing db with
  | nil => simp
  | cons row rows ih =>
    rw [List.foldl_cons, ih, Db.has_put, List.map_cons]
    by_cases heq : id = row.1
    · simp [heq]
    · have hin : id ∈ row.1 :: rows.map Prod.fst ↔ id ∈ rows.map Prod.fst :=
        List.mem_cons.trans (or_iff_right heq)
      rw [decide_eq_false heq, Bool.false_or, decide_eq_decide.mpr hin]

/-- Chunk after chunk; an id of one chunk is in no other. -/
theorem insertChunks_accepted {chunks : List (List (ResolvedItem V))}
    (hnodup : (chunks.flatten.map (·.id)).Nodup)
    (h : ∀ item ∈ chunks.flatten, driver.Insertable now item) (acc : Round V) (db : Db V) :
    chunks.foldlM (driver.insertChunk now) acc db =
      (.ok { acc with results :=
          acc.results.scatter (chunks.flatten.map (answer db.tables.jobs.has)) },
        (chunks.flatten.map ResolvedItem.row).foldl (Db.put now) db) := by
  induction chunks generalizing acc db with
  | nil => rfl
  | cons chunk chunks ih =>
    rw [List.flatten_cons] at hnodup h ⊢
    rw [List.map_append, List.nodup_append] at hnodup
    obtain ⟨hchunk, hrest, hapart⟩ := hnodup
    have hlater : chunks.flatten.map
          (answer ((chunk.map ResolvedItem.row).foldl (Db.put now) db).tables.jobs.has) =
        chunks.flatten.map (answer db.tables.jobs.has) := by
      refine List.map_congr_left fun item hitem => ?_
      have hnot : item.id ∉ (chunk.map ResolvedItem.row).map Prod.fst := by
        rw [List.map_map]
        exact fun hin => hapart item.id hin item.id (List.mem_map_of_mem hitem) rfl
      unfold answer
      rw [has_foldl_put, decide_eq_false hnot, Bool.false_or]
    rw [List.foldlM_cons, Call.bind_ok (driver.insertChunk_accepted now hchunk
      (fun item hitem => h item (List.mem_append_left _ hitem)) acc db)]
    refine (ih hrest (fun item hitem => h item (List.mem_append_right _ hitem)) _ _).trans ?_
    rw [hlater, List.map_append, List.map_append, List.scatter_append, List.foldl_append]

/-! ### The whole batch -/

theorem insertBatch_plain {requests : List (EnqueueRequest V)}
    (h : ∀ request ∈ requests, driver.Explicit now request ∧ request.dedupe = none) (db : Db V) :
    driver.insertBatch now requests db =
      (.ok (answers db.tables.jobs.has (requests.map fun request => (rowOf request).1)),
        ((firsts [] ((requests.zip (List.range requests.length)).map fun item =>
          ⟨item.1, item.2, item.1.id⟩)).map ResolvedItem.row).foldl (Db.put now) db) := by
  obtain rfl | hne := eq_or_ne requests []
  · rfl
  set pending : List (PendingItem V) :=
    (requests.zip (List.range requests.length)).map fun item => ⟨item.1, item.2, item.1.id⟩
    with hpending
  have hlength : requests.length = (List.range requests.length).length := by
    rw [List.length_range]
  have hrequests : pending.map (·.request) = requests := by
    rw [hpending, List.map_map]
    exact List.map_fst_zip hlength.le
  have hindexes : pending.map (·.index) = List.range requests.length := by
    rw [hpending, List.map_map]
    exact List.map_snd_zip hlength.ge
  have hitem : ∀ item ∈ pending, item.id = item.request.id := by
    intro item hin
    rw [hpending] at hin
    obtain ⟨pair, -, rfl⟩ := List.mem_map.mp hin
    rfl
  have hplain : ∀ item ∈ pending, driver.Plain now item := by
    intro item hin
    have hrequest := h item.request (hrequests ▸ List.mem_map_of_mem hin)
    exact ⟨hrequest.1, hrequest.2, hitem item hin⟩
  have hids : pending.map (fun item => (resolved item).id) =
      requests.map fun request => (rowOf request).1 := by
    conv_rhs => rw [← hrequests, List.map_map]
    exact List.map_congr_left fun item hin => congrArg (·.getD "") (hitem item hin)
  have hinsertable : ∀ item ∈ firsts [] pending, driver.Insertable now item := by
    intro item hin
    obtain ⟨source, hsource, rfl⟩ := mem_firsts hin
    obtain ⟨⟨id, hid, haccepts⟩, hdedupe, hown⟩ := hplain source hsource
    refine ⟨?_, ?_⟩
    · change driver.accepts (source.id.getD "") source.request now = true
      rw [hown, hid]
      exact haccepts hdedupe
    · change source.request.id.isSome = true
      rw [hid]
      rfl
  have hsome : pending.isEmpty = false := by
    rw [List.isEmpty_eq_false_iff]
    intro hnil
    rw [hnil] at hrequests
    exact hne hrequests.symm
  have hscatter : ((List.replicate requests.length none).scatter (repeats [] pending)).scatter
      ((firsts [] pending).map (answer db.tables.jobs.has)) =
        (answers db.tables.jobs.has (requests.map fun request => (rowOf request).1)).map some := by
    have hcount : (answers db.tables.jobs.has
        (requests.map fun request => (rowOf request).1)).length = requests.length := by
      rw [length_answers, List.length_map]
    rw [← List.scatter_append, ← hcount]
    refine List.scatter_perm ?_
    have hperm := answers_perm db.tables.jobs.has [] pending
    rw [hindexes, hids] at hperm
    rw [hcount]
    simpa using hperm
  have hround : driver.insertRound now ⟨List.replicate requests.length none, pending⟩ db =
      (.ok ⟨(answers db.tables.jobs.has (requests.map fun request => (rowOf request).1)).map some,
        []⟩, ((firsts [] pending).map ResolvedItem.row).foldl (Db.put now) db) := by
    have hflatten : ((firsts [] pending).chunks 500).flatten = firsts [] pending :=
      List.chunks_flatten 499 _
    have hchunks : ((firsts [] pending).chunks 500).foldlM (driver.insertChunk now) _ db = _ :=
      driver.insertChunks_accepted now (by rw [hflatten]; exact (firsts_spec [] pending).1)
        (by rwa [hflatten])
      ⟨(List.replicate requests.length none).scatter (repeats [] pending), []⟩ db
    rw [hflatten, hscatter] at hchunks
    unfold insertRound
    simp only [driver.assignId_foldl now hplain, screenItem_foldl driver now hplain, List.nil_append]
    exact hchunks
  have hrounds : driver.insertRounds now 5 ⟨List.replicate requests.length none, pending⟩ db =
      (.ok ((answers db.tables.jobs.has (requests.map fun request => (rowOf request).1)).map some),
        ((firsts [] pending).map ResolvedItem.row).foldl (Db.put now) db) := by
    rw [insertRounds, hsome]
    refine (Call.bind_ok hround).trans ?_
    rfl
  unfold insertBatch
  rw [← hpending, Call.bind_ok hrounds, List.mapM_id_map_some]
  rfl

theorem insertBatch_simulates {requests : List (EnqueueRequest V)}
    (h : ∀ request ∈ requests, driver.Explicit now request ∧ request.dedupe = none) :
    Simulates Db.Alike (driver.insertBatch now requests)
      (requests.mapM (driver.enqueueOne now)) := by
  intro db db' halike
  rw [driver.insertBatch_plain now h, driver.mapM_enqueueOne now h, halike.has]
  refine ⟨rfl, ?_⟩
  have hrows : ((requests.zip (List.range requests.length)).map fun item =>
        (⟨item.1, item.2, item.1.id⟩ : PendingItem V)).map
          (fun item => ((resolved item).id, item.request)) = requests.map rowOf := by
    have hlength : requests.length ≤ (List.range requests.length).length := by
      rw [List.length_range]
    rw [List.map_map]
    conv_rhs => rw [← List.map_fst_zip hlength, List.map_map]
    rfl
  rw [← hrows]
  exact firsts_alike now halike fun _ h => absurd h List.not_mem_nil

/-- A batch answers and leaves what its requests do one by one, up to the numbers drawn. -/
theorem enqueueMany_simulates {requests : List (EnqueueRequest V)}
    (h : ∀ request ∈ requests, driver.Explicit now request) :
    Simulates Db.Alike (driver.enqueueMany now requests)
      (requests.mapM (driver.enqueueOne now)) := by
  refine enqueueManyWith_simulates (fun batch hbatch => driver.insertBatch_simulates now hbatch)
    (fun request ⟨id, hid, _⟩ => driver.enqueueOne_simulates now hid) h

end Driver

end EffectMq.Drizzle
