import EffectMq.Batching
import EffectMq.Library.Chunks
import EffectMq.Library.Scatter
import EffectMq.RedisJobStore.Scripts

/-! # The Redis driver: enqueue and enqueueMany

`enqueueJob`, `insertBatch` and `enqueueMany` of `RedisJobStore.ts`, around the scripts they send. A
call runs at one clock value and nothing else runs meanwhile.
-/

namespace EffectMq.Redis
open Call (Simulates)
set_option autoImplicit false
set_option maxHeartbeats 250000

variable {V : Type}

/-- The options of `make` that inserting reads. A generator gives one id after the other. -/
structure Driver (V : Type) where
  indexes : IndexConfig
  idGenerator : Option (ℕ → EnqueueRequest V → JobId)

/-- The keyspace, and how many ids the generator has given. -/
structure Session (V : Type) where
  ks : Keyspace V
  draws : ℕ

namespace Driver

variable (driver : Driver V) (now : ℤ)

/-- Who chooses the id of a request, and the candidate if it is not the script. -/
def candidate (draws : ℕ) (request : EnqueueRequest V) : IdMode × JobId × ℕ :=
  match request.id, driver.idGenerator with
  | some id, _ => (.user, id, draws)
  | none, some generate => (.generated, generate draws request, draws + 1)
  | none, none => (.auto, "", draws)

def enqueueFailed : StoreError :=
  .jobStoreError "enqueue failed: could not generate a unique job id"

/-- In so many tries. -/
def enqueueTries (request : EnqueueRequest V) :
    ℕ → Session V → Except StoreError EnqueueResult × Session V
  | 0, s => (.error enqueueFailed, s)
  | tries + 1, s =>
    let (mode, id, draws) := driver.candidate s.draws request
    match enqueue driver.indexes s.ks mode id request now with
    | (.collision, ks) => enqueueTries request tries ⟨ks, draws⟩
    | (.noId, ks) => (.error enqueueFailed, ⟨ks, draws⟩)
    | (.enqueued id duplicate, ks) => (.ok ⟨id, duplicate⟩, ⟨ks, draws⟩)

def enqueueJob (request : EnqueueRequest V) : Call StoreError (Session V) EnqueueResult :=
  driver.enqueueTries now request 5

/-! ## Batches -/

structure PendingItem (V : Type) where
  request : EnqueueRequest V
  index : ℕ

/-- The results by position, the items to send again, and whether some item has no id. -/
structure Round (V : Type) where
  results : List (Option EnqueueResult)
  stillPending : List (PendingItem V)
  failed : Bool

/-- The arguments of one item. -/
def itemArgs (acc : List (BatchItem V) × ℕ) (item : PendingItem V) : List (BatchItem V) × ℕ :=
  let (mode, id, draws) := driver.candidate acc.2 item.request
  (acc.1 ++ [⟨mode, id, item.request⟩], draws)

def placeReply (acc : Round V) (answered : PendingItem V × EnqueueReply) : Round V :=
  match answered.2 with
  | .noId => { acc with failed := true }
  | .collision => { acc with stillPending := acc.stillPending ++ [answered.1] }
  | .enqueued id duplicate =>
    { acc with results := acc.results.set answered.1.index (some ⟨id, duplicate⟩) }

def enqueueManyFailed : StoreError :=
  .jobStoreError "enqueueMany failed: could not generate a unique job id"

def insertChunk (acc : Round V) (chunk : List (PendingItem V)) :
    Call StoreError (Session V) (Round V) := fun s =>
  let (items, draws) := chunk.foldl driver.itemArgs ([], s.draws)
  let (replies, ks) := Redis.enqueueMany driver.indexes s.ks now items
  let acc := (chunk.zip replies).foldl placeReply acc
  (if acc.failed then .error enqueueManyFailed else .ok acc, ⟨ks, draws⟩)

/-- In so many rounds, until no item is pending. -/
def insertRounds : ℕ → List (Option EnqueueResult) → List (PendingItem V) →
    Call StoreError (Session V) (List (Option EnqueueResult))
  | 0, results, _ => pure results
  | rounds + 1, results, pending =>
    if pending.isEmpty then pure results
    else (pending.chunks 500).foldlM (driver.insertChunk now) ⟨results, [], false⟩ >>= fun acc =>
      insertRounds rounds acc.results acc.stillPending

def insertBatch (requests : List (EnqueueRequest V)) :
    Call StoreError (Session V) (List EnqueueResult) :=
  driver.insertRounds now 5 (List.replicate requests.length none)
    ((requests.zip (List.range requests.length)).map fun item => ⟨item.1, item.2⟩) >>= fun results =>
      match results.mapM id with
      | some resolved => pure resolved
      | none => throw enqueueManyFailed

/-- Dedup items go through `enqueueJob` in order, the runs of plain items between them in batches. -/
def enqueueMany (requests : List (EnqueueRequest V)) :
    Call StoreError (Session V) (List EnqueueResult) :=
  enqueueManyWith (driver.insertBatch now) (driver.enqueueJob now) requests

/-! ## A batch is its items one by one -/

/-- A request under an id of its caller; a plain one is not sent with the empty id. -/
def Explicit (request : EnqueueRequest V) : Prop :=
  ∃ id, request.id = some id ∧ (request.dedupe = none → id ≠ "")

/-- What a plain item under the caller's id leaves. -/
def putJob (indexes : IndexConfig) (ks : Keyspace V) (request : EnqueueRequest V) : Keyspace V :=
  if ks.jobs.has (request.id.getD "") then ks
  else insertJobRow indexes ks (request.id.getD "") request "" now

/-- Plain items one after the other. -/
def putJobs (indexes : IndexConfig) :
    List (EnqueueRequest V) → Keyspace V → List EnqueueResult × Keyspace V
  | [], ks => ([], ks)
  | request :: requests, ks =>
    let rest := putJobs indexes requests (putJob now indexes ks request)
    (⟨request.id.getD "", ks.jobs.has (request.id.getD "")⟩ :: rest.1, rest.2)

theorem length_putJobs (indexes : IndexConfig) (requests : List (EnqueueRequest V))
    (ks : Keyspace V) : (putJobs now indexes requests ks).1.length = requests.length := by
  induction requests generalizing ks with
  | nil => rfl
  | cons request requests ih => exact congrArg (· + 1) (ih _)

theorem putJobs_append (indexes : IndexConfig) (requests requests' : List (EnqueueRequest V))
    (ks : Keyspace V) :
    putJobs now indexes (requests ++ requests') ks =
      ((putJobs now indexes requests ks).1 ++
          (putJobs now indexes requests' (putJobs now indexes requests ks).2).1,
        (putJobs now indexes requests' (putJobs now indexes requests ks).2).2) := by
  induction requests generalizing ks with
  | nil => rfl
  | cons request requests ih => simp only [List.cons_append, putJobs, ih]

theorem enqueue_user {indexes : IndexConfig} {ks : Keyspace V} {request : EnqueueRequest V}
    {id : JobId} (hid : request.id = some id) (hplain : request.dedupe = none) :
    enqueue indexes ks .user id request now =
      (.enqueued id (ks.jobs.has id), putJob now indexes ks request) := by
  have hdedupe : dedupeOf request = none := by rw [dedupeOf, hplain]; rfl
  unfold enqueue putJob
  rw [hdedupe, hid, Option.getD_some]
  cases hhas : ks.jobs.has id with
  | true => simp
  | false => simp [resolveId]

theorem enqueueJob_user {request : EnqueueRequest V} {id : JobId} (hid : request.id = some id)
    (hplain : request.dedupe = none) (s : Session V) :
    driver.enqueueJob now request s =
      (.ok ⟨id, s.ks.jobs.has id⟩, ⟨putJob now driver.indexes s.ks request, s.draws⟩) := by
  have hcandidate : driver.candidate s.draws request = (.user, id, s.draws) := by
    unfold candidate
    rw [hid]
  unfold enqueueJob enqueueTries
  simp only [hcandidate, enqueue_user now hid hplain]

theorem mapM_enqueueJob {requests : List (EnqueueRequest V)}
    (h : ∀ request ∈ requests, Explicit request ∧ request.dedupe = none) (s : Session V) :
    (requests.mapM (driver.enqueueJob now)) s =
      (.ok (putJobs now driver.indexes requests s.ks).1,
        ⟨(putJobs now driver.indexes requests s.ks).2, s.draws⟩) := by
  induction requests generalizing s with
  | nil => rfl
  | cons request requests ih =>
    obtain ⟨⟨id, hid, -⟩, hplain⟩ := h request List.mem_cons_self
    rw [List.mapM_cons, Call.bind_ok (driver.enqueueJob_user now hid hplain s),
      Call.bind_ok (ih (fun r hr => h r (List.mem_cons_of_mem _ hr)) _)]
    simp only [putJobs, hid, Option.getD_some]
    rfl

/-! ### One chunk -/

/-- The items of plain requests, as they are sent. -/
def sent (request : EnqueueRequest V) : BatchItem V := ⟨.user, request.id.getD "", request⟩

theorem itemArgs_foldl {chunk : List (PendingItem V)}
    (h : ∀ item ∈ chunk, Explicit item.request) (acc : List (BatchItem V) × ℕ) :
    chunk.foldl driver.itemArgs acc = (acc.1 ++ chunk.map fun item => sent item.request, acc.2) := by
  induction chunk generalizing acc with
  | nil => simp
  | cons item chunk ih =>
    obtain ⟨id, hid, -⟩ := h item List.mem_cons_self
    have hstep : driver.itemArgs acc item = (acc.1 ++ [sent item.request], acc.2) := by
      unfold itemArgs candidate sent
      rw [hid]
      rfl
    rw [List.foldl_cons, hstep, ih fun item hitem => h item (List.mem_cons_of_mem _ hitem)]
    simp

def reply (result : EnqueueResult) : EnqueueReply := .enqueued result.id result.duplicate

theorem enqueueItem_sent {indexes : IndexConfig} {request : EnqueueRequest V}
    (h : Explicit request ∧ request.dedupe = none) (replies : List EnqueueReply) (ks : Keyspace V) :
    enqueueItem indexes now (replies, ks) (sent request) =
      (replies ++ [.enqueued (request.id.getD "") (ks.jobs.has (request.id.getD ""))],
        putJob now indexes ks request) := by
  obtain ⟨⟨id, hid, hne⟩, hplain⟩ := h
  unfold enqueueItem putJob sent
  rw [hid, Option.getD_some]
  cases hhas : ks.jobs.has id with
  | true => simp [hhas]
  | false => simp [hhas, resolveId, hne hplain]

theorem enqueueMany_sent {indexes : IndexConfig} {requests : List (EnqueueRequest V)}
    (h : ∀ request ∈ requests, Explicit request ∧ request.dedupe = none)
    (acc : List EnqueueReply × Keyspace V) :
    (requests.map sent).foldl (enqueueItem indexes now) acc =
      (acc.1 ++ (putJobs now indexes requests acc.2).1.map reply,
        (putJobs now indexes requests acc.2).2) := by
  induction requests generalizing acc with
  | nil => simp [putJobs]
  | cons request requests ih =>
    rw [List.map_cons, List.foldl_cons, enqueueItem_sent now (h request List.mem_cons_self),
      ih fun r hr => h r (List.mem_cons_of_mem _ hr)]
    simp [putJobs, reply]

theorem placeReply_foldl (chunk : List (PendingItem V)) (results : List EnqueueResult)
    (acc : Round V) :
    (chunk.zip (results.map reply)).foldl placeReply acc =
      { acc with results := acc.results.scatter ((chunk.map (·.index)).zip results) } := by
  induction chunk generalizing results acc with
  | nil => rfl
  | cons item chunk ih =>
    cases results with
    | nil => rfl
    | cons result results =>
      rw [List.map_cons, List.zip_cons_cons, List.foldl_cons, ih]
      rfl

/-- The requests of the items, and what their answers write. -/
def answers (indexes : IndexConfig) (ks : Keyspace V) (items : List (PendingItem V)) :
    List (ℕ × EnqueueResult) :=
  (items.map (·.index)).zip (putJobs now indexes (items.map (·.request)) ks).1

def Plain (item : PendingItem V) : Prop := Explicit item.request ∧ item.request.dedupe = none

theorem insertChunk_plain {chunk : List (PendingItem V)} (h : ∀ item ∈ chunk, Plain item)
    {acc : Round V} (hacc : acc.failed = false) (s : Session V) :
    driver.insertChunk now acc chunk s =
      (.ok { acc with results :=
          acc.results.scatter (answers now driver.indexes s.ks chunk) },
        ⟨(putJobs now driver.indexes (chunk.map (·.request)) s.ks).2, s.draws⟩) := by
  have hitems : chunk.foldl driver.itemArgs ([], s.draws) =
      ((chunk.map (·.request)).map sent, s.draws) := by
    rw [driver.itemArgs_foldl fun item hitem => (h item hitem).1, List.nil_append, List.map_map]
    rfl
  have hreplies : Redis.enqueueMany driver.indexes s.ks now ((chunk.map (·.request)).map sent) =
      ((putJobs now driver.indexes (chunk.map (·.request)) s.ks).1.map reply,
        (putJobs now driver.indexes (chunk.map (·.request)) s.ks).2) := by
    refine (enqueueMany_sent now (fun request hrequest => ?_) ([], s.ks)).trans rfl
    obtain ⟨item, hitem, rfl⟩ := List.mem_map.mp hrequest
    exact h item hitem
  unfold insertChunk
  simp only [hitems, hreplies, placeReply_foldl, hacc]
  rfl

/-! ### The whole batch -/

theorem answers_append (indexes : IndexConfig) (ks : Keyspace V) (items items' : List (PendingItem V)) :
    answers now indexes ks (items ++ items') =
      answers now indexes ks items ++
        answers now indexes (putJobs now indexes (items.map (·.request)) ks).2 items' := by
  unfold answers
  rw [List.map_append, List.map_append, putJobs_append, List.zip_append]
  rw [List.length_map, length_putJobs, List.length_map]

/-- Chunk after chunk, from the keyspace the chunk before left. -/
theorem insertChunks_plain {chunks : List (List (PendingItem V))}
    (h : ∀ item ∈ chunks.flatten, Plain item) {acc : Round V} (hacc : acc.failed = false)
    (s : Session V) :
    chunks.foldlM (driver.insertChunk now) acc s =
      (.ok { acc with results :=
          acc.results.scatter (answers now driver.indexes s.ks chunks.flatten) },
        ⟨(putJobs now driver.indexes (chunks.flatten.map (·.request)) s.ks).2, s.draws⟩) := by
  induction chunks generalizing acc s with
  | nil => rfl
  | cons chunk chunks ih =>
    rw [List.flatten_cons] at h ⊢
    have hchunk := driver.insertChunk_plain now
      (fun item hitem => h item (List.mem_append_left _ hitem)) hacc s
    rw [List.foldlM_cons, Call.bind_ok hchunk]
    refine (ih (fun item hitem => h item (List.mem_append_right _ hitem)) (by exact hacc) _).trans ?_
    rw [answers_append, List.scatter_append, List.map_append, putJobs_append]

theorem insertBatch_plain {requests : List (EnqueueRequest V)}
    (h : ∀ request ∈ requests, Explicit request ∧ request.dedupe = none) (s : Session V) :
    driver.insertBatch now requests s =
      (.ok (putJobs now driver.indexes requests s.ks).1,
        ⟨(putJobs now driver.indexes requests s.ks).2, s.draws⟩) := by
  obtain rfl | hne := eq_or_ne requests []
  · rfl
  set pending : List (PendingItem V) :=
    (requests.zip (List.range requests.length)).map fun item => ⟨item.1, item.2⟩ with hpending
  have hlength : requests.length = (List.range requests.length).length := by
    rw [List.length_range]
  have hrequests : pending.map (·.request) = requests := by
    rw [hpending, List.map_map]
    exact List.map_fst_zip hlength.le
  have hindexes : pending.map (·.index) = List.range requests.length := by
    rw [hpending, List.map_map]
    exact List.map_snd_zip hlength.ge
  have hplain : ∀ item ∈ pending, Plain item := fun item hitem =>
    h item.request (hrequests ▸ List.mem_map_of_mem hitem)
  have hsome : pending.isEmpty = false := by
    rw [List.isEmpty_eq_false_iff]
    intro hnil
    rw [hnil] at hrequests
    exact hne hrequests.symm
  set put := putJobs now driver.indexes requests s.ks with hput
  have hanswers : (List.replicate requests.length none).scatter
      (answers now driver.indexes s.ks pending) = put.1.map some := by
    rw [answers, hrequests, hindexes, ← hput]
    have hcount : put.1.length = requests.length := length_putJobs ..
    rw [← hcount]
    exact List.scatter_perm (.refl _)
  have hchunks := driver.insertChunks_plain now 
    (by rwa [List.chunks_flatten] : ∀ item ∈ (pending.chunks 500).flatten, Plain item)
    (rfl : (Round.mk (List.replicate requests.length none) [] false : Round V).failed = false) s
  rw [List.chunks_flatten, hrequests, hanswers, ← hput] at hchunks
  have hround : driver.insertRounds now 5 (List.replicate requests.length none) pending s =
      (.ok (put.1.map some), ⟨put.2, s.draws⟩) := by
    rw [insertRounds, hsome]
    refine (Call.bind_ok hchunks).trans ?_
    rfl
  unfold insertBatch
  rw [← hpending, Call.bind_ok hround, List.mapM_id_map_some]
  rfl

/-- A batch answers and leaves what its requests do one by one. -/
theorem enqueueMany_simulates {requests : List (EnqueueRequest V)}
    (h : ∀ request ∈ requests, Explicit request) :
    Simulates Eq (driver.enqueueMany now requests) (requests.mapM (driver.enqueueJob now)) := by
  refine enqueueManyWith_simulates (fun batch hbatch => .of_eq fun s => ?_) (fun request _ => ?_) h
  · rw [driver.insertBatch_plain now hbatch, driver.mapM_enqueueJob now hbatch]
  · exact .of_eq fun _ => rfl

end Driver

end EffectMq.Redis
