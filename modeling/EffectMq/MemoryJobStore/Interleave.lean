import EffectMq.MemoryJobStore.OneInFlight

/-! # Enqueues in flight

An enqueue yields at its clock read and at every run of a generator that returns an effect.
`CallStep` interleaves any number of enqueues with the other operations, and `Serial.run` does the
same work one enqueue at a time.
-/

namespace EffectMq.Memory
set_option autoImplicit false
set_option maxHeartbeats 250000

open Transition

variable {V : Type}

/-! ## An enqueue between its yields -/

/-- Where an enqueue is at its next yield, or how it ended. `drawn` are the ids it has drawn, all of
them taken. -/
inductive Yielded
  | drawing (drawn : List JobId)
  | done (ids : IdSource) (result : Except StoreError EnqueueResult)

/-- The generator loop. The generator returns the ids `draws` and after them an effect. -/
def drawIds (s : Store V) (now : Millis) (request : EnqueueRequest V) (drawn draws : List JobId) :
    Yielded × Store V :=
  if 5 ≤ drawn.length then
    (.done (.generator drawn)
      (.error (.jobStoreError "enqueue failed: could not generate a unique job id")), s)
  else match draws with
    | [] => (.drawing drawn, s)
    | candidate :: draws =>
      match resumeEnqueue s now request candidate with
      | (some result, s) => (.done (.generator (drawn ++ [candidate])) (.ok result), s)
      | (none, s) => drawIds s now request (drawn ++ [candidate]) draws

/-- The part after the clock read. Only a job without an id that is to be inserted asks the
generator. -/
def startEnqueue (generates : Bool) (s : Store V) (now : Millis) (request : EnqueueRequest V)
    (draws : List JobId) : Yielded × Store V :=
  if generates = true ∧ request.id = none ∧ (enqueueDecision s now request).isNone = true then
    drawIds s now request [] draws
  else
    let ids := if generates then .generator [] else .counter
    let (result, s) := enqueueOne s now request ids
    (.done ids result, s)

inductive Phase
  | called
  | read (now : Millis)
  | drawing (now : Millis) (drawn : List JobId)

structure Call (V : Type) where
  request : EnqueueRequest V
  phase : Phase

/-! ## The other operations -/

inductive Look
  | getJob (id : JobId)
  | getAttempts (id : JobId)
  | counts (queue : Option QueueName) (state : JobState)
  | peekOutbox (limit : ℕ) (after : Option ℕ)

inductive Answer (V : Type)
  | nothing
  | enqueued (result : Except StoreError EnqueueResult)
  | resumed (result : Option EnqueueResult)
  | claim (result : ClaimResult V)
  | verdict (result : Except StoreError Unit)
  | locks (result : ExtendLocksResult)
  | recovered (result : List Recovered)
  | waiter (id : Option ℕ)
  | flag (result : Bool)
  | ticked (result : Except StoreError Bool)
  | reported (results : List ReportResult)
  | sweep (work : FlowSweepWork V)
  | job (record : Option (JobRecord V))
  | attempts (ledger : List (AttemptRecord V))
  | count (n : ℕ)
  | outbox (entries : List (OutboxEntry V))

/-- What an operation returns to its caller. -/
def opAnswer (s : Store V) (now : Millis) : Op V → Answer V
  | .enqueue request ids => .enqueued (enqueueOne s now request ids).1
  | .resumeEnqueue request candidate => .resumed (resumeEnqueue s now request candidate).1
  | .claim options => .claim (claim s now options).1
  | .ack id token outcome => .verdict (ack s now id token outcome).1
  | .release id token => .verdict (release s now id token).1
  | .extendLocks locks durationMs => .locks (extendLocks s now locks durationMs).1
  | .recoverStalled maxStalledCount => .recovered (recoverStalled s now maxStalledCount).1
  | .awaitWake queues wakeToken => .waiter (awaitWake s queues wakeToken).1
  | .retry id => .verdict (retry s now id).1
  | .cancel id => .verdict (cancelJob s now id).1
  | .cancelByDedupe name key => .flag (cancelByDedupe s now name key).1
  | .promote id => .verdict (promote s now id).1
  | .removeSchedule key => .flag (removeSchedule s key).1
  | .tickSchedule key expectedRunAt nextRunAt request =>
    .ticked (tickSchedule s now key expectedRunAt nextRunAt request).1
  | .recordChildResults reports => .reported (recordChildResults s now reports).1
  | .flowSweepWork options => .sweep (flowSweepWork s now options).1
  | .remove id => .flag (remove s id).1
  | _ => .nothing

def lookAnswer (s : Store V) : Look → Answer V
  | .getJob id => .job (getJob s id)
  | .getAttempts id => .attempts (getAttempts s id)
  | .counts queue state => .count (counts s queue state)
  | .peekOutbox limit after => .outbox (peekOutbox s limit after)

/-- A call of another operation. -/
inductive Verb (V : Type)
  | write (now : Millis) (op : Op V)
  | look (query : Look)

def Verb.exec (s : Store V) : Verb V → Store V
  | .write now op => Memory.exec s now op
  | .look _ => s

def Verb.answer (s : Store V) : Verb V → Answer V
  | .write now op => opAnswer s now op
  | .look query => lookAnswer s query

def Verb.isEnqueue : Verb V → Bool
  | .write _ (.enqueue _ _) | .write _ (.resumeEnqueue _ _) => true
  | _ => false

/-! ## One at a time, and interleaved -/

/-- An enqueue that has returned, with the clock reading and the ids it drew. -/
structure Served (V : Type) where
  call : ℕ
  request : EnqueueRequest V
  now : Millis
  ids : IdSource
  result : Except StoreError EnqueueResult

/-- The store and all that was returned so far. -/
structure Serial (V : Type) where
  store : Store V
  served : List (Served V)
  log : List (Verb V × Answer V)

inductive Task (V : Type)
  | enqueue (call : ℕ) (request : EnqueueRequest V) (now : Millis) (ids : IdSource)
  | verb (verb : Verb V)

/-- A whole enqueue, or another operation. -/
def Serial.run (s : Serial V) : Task V → Serial V
  | .enqueue call request now ids =>
    let (result, store) := enqueueOne s.store now request ids
    { s with store, served := s.served ++ [⟨call, request, now, ids, result⟩] }
  | .verb verb =>
    { s with store := verb.exec s.store, log := s.log ++ [(verb, verb.answer s.store)] }

structure Calls (V : Type) extends Serial V where
  inFlight : JsMap ℕ (Call V)

def Calls.start (s : Store V) : Calls V := ⟨⟨s, [], []⟩, ∅⟩

def Calls.yield (s : Calls V) (c : ℕ) (request : EnqueueRequest V) (now : Millis) :
    Yielded × Store V → Calls V
  | (.drawing drawn, store) =>
    { s with store, inFlight := s.inFlight.set c ⟨request, .drawing now drawn⟩ }
  | (.done ids result, store) =>
    { s with
      store
      served := s.served ++ [⟨c, request, now, ids, result⟩]
      inFlight := s.inFlight.delete c }

inductive CallEvent (V : Type)
  | call (c : ℕ) (request : EnqueueRequest V)
  | clock (c : ℕ) (now : Millis)
  | block (c : ℕ) (draws : List JobId)
  | draw (c : ℕ) (candidate : JobId) (draws : List JobId)
  | verb (verb : Verb V)

/-- The store is made with an id generator or not; a call may stay where it is forever. -/
inductive CallStep (generates : Bool) : Calls V → CallEvent V → Calls V → Prop
  | call {s : Calls V} {c : ℕ} {request : EnqueueRequest V} (hc : s.inFlight.get? c = none) :
      CallStep generates s (.call c request)
        { s with inFlight := s.inFlight.set c ⟨request, .called⟩ }
  | clock {s : Calls V} {c : ℕ} {request : EnqueueRequest V} {now : Millis}
      (hc : s.inFlight.get? c = some ⟨request, .called⟩) :
      CallStep generates s (.clock c now)
        { s with inFlight := s.inFlight.set c ⟨request, .read now⟩ }
  | block {s : Calls V} {c : ℕ} {request : EnqueueRequest V} {now : Millis} {draws : List JobId}
      (hc : s.inFlight.get? c = some ⟨request, .read now⟩) :
      CallStep generates s (.block c draws)
        (s.yield c request now (startEnqueue generates s.store now request draws))
  | draw {s : Calls V} {c : ℕ} {request : EnqueueRequest V} {now : Millis} {drawn : List JobId}
      {candidate : JobId} {draws : List JobId}
      (hc : s.inFlight.get? c = some ⟨request, .drawing now drawn⟩) :
      CallStep generates s (.draw c candidate draws)
        (s.yield c request now (drawIds s.store now request drawn (candidate :: draws)))
  | verb {s : Calls V} {verb : Verb V} (hv : verb.isEnqueue = false) :
      CallStep generates s (.verb verb)
        { s with store := verb.exec s.store, log := s.log ++ [(verb, verb.answer s.store)] }

/-- Some order of the enqueues that have returned, one at a time and with the other operations among
them as they came, gives the same store and the same answers. -/
def Explained (start : Store V) (s : Calls V) : Prop :=
  ∃ tasks : List (Task V), ∃ t : Serial V, t = tasks.foldl Serial.run ⟨start, [], []⟩ ∧
    t.store = s.store ∧ t.served.Perm s.served ∧ t.log = s.log

/-! ## What a step of an enqueue does -/

section

variable {s : Store V} {now : Millis} {request : EnqueueRequest V}

/-- The draws end the loop: a free id is among them, or no try is left. -/
def LoopEnds (s : Store V) (drawn draws : List JobId) : Prop :=
  5 ≤ drawn.length + draws.length ∨ ∃ id ∈ draws, s.jobs.has id = false

theorem find?_taken {drawn : List JobId} (h : ∀ id ∈ drawn, s.jobs.has id = true) :
    drawn.find? (fun id => !s.jobs.has id) = none := by
  rw [List.find?_eq_none]
  intro id hid
  rw [h id hid]
  decide

/-- The atomic enqueue that drew the same ids, when none of them is free. -/
theorem enqueueOne_exhausted (hid : request.id = none) (hdec : enqueueDecision s now request = none)
    {drawn : List JobId} (htaken : ∀ id ∈ drawn, s.jobs.has id = true) :
    enqueueOne s now request (.generator drawn) =
      (.error (.jobStoreError "enqueue failed: could not generate a unique job id"), s) := by
  have hnone : (drawn.take 5).find? (fun id => !s.jobs.has id) = none :=
    find?_taken fun id h => htaken id (List.mem_of_mem_take h)
  simp only [enqueueOne, hdec, assignId, hid, hnone]

/-- The atomic enqueue that drew the same ids, when the last one is free. -/
theorem enqueueOne_drawn (hid : request.id = none) (hdec : enqueueDecision s now request = none)
    {drawn : List JobId} (htaken : ∀ id ∈ drawn, s.jobs.has id = true) (hlen : drawn.length < 5)
    {candidate : JobId} (hfree : s.jobs.has candidate = false) :
    enqueueOne s now request (.generator (drawn ++ [candidate])) =
      (.ok ⟨candidate, false⟩, insertFresh s now request candidate) := by
  have hfind : ((drawn ++ [candidate]).take 5).find? (fun id => !s.jobs.has id) = some candidate := by
    have hall : (drawn ++ [candidate]).take 5 = drawn ++ [candidate] := by
      refine List.take_of_length_le ?_
      rw [List.length_append, List.length_singleton]
      omega
    rw [hall, List.find?_append, find?_taken htaken, Option.none_or, List.find?_singleton, hfree]
    rfl
  simp only [enqueueOne, hdec, assignId, hid, hfind]

theorem loopEnds_taken {drawn draws : List JobId} {candidate : JobId}
    (htaken : s.jobs.has candidate = true) :
    LoopEnds s (drawn ++ [candidate]) draws ↔ LoopEnds s drawn (candidate :: draws) := by
  have hlen : (drawn ++ [candidate]).length + draws.length =
      drawn.length + (candidate :: draws).length := by
    rw [List.length_append, List.length_singleton, List.length_cons]
    omega
  unfold LoopEnds
  rw [hlen]
  simp [htaken]

/-- Where the generator loop stops. -/
inductive Drawn (s : Store V) (now : Millis) (request : EnqueueRequest V) (drawn draws : List JobId) :
    Yielded × Store V → Prop
  | drawing (drawn' : List JobId) (hopen : ¬ LoopEnds s drawn draws) :
      Drawn s now request drawn draws (.drawing drawn', s)
  | done (ids : IdSource) (result : Except StoreError EnqueueResult) (t : Store V)
      (hends : LoopEnds s drawn draws)
      (hserial : enqueueDecision s now request = none → (∀ id ∈ drawn, s.jobs.has id = true) →
        enqueueOne s now request ids = (result, t)) :
      Drawn s now request drawn draws (.done ids result, t)

theorem drawIds_spec (s : Store V) (now : Millis) {request : EnqueueRequest V}
    (hid : request.id = none) (drawn draws : List JobId) :
    Drawn s now request drawn draws (drawIds s now request drawn draws) := by
  induction draws generalizing drawn with
  | nil =>
    unfold drawIds
    by_cases hlen : 5 ≤ drawn.length
    · rw [if_pos hlen]
      exact .done _ _ _ (.inl hlen) fun hdec htaken => enqueueOne_exhausted hid hdec htaken
    · rw [if_neg hlen]
      refine .drawing drawn ?_
      rintro (hfull | ⟨_, hmem, _⟩)
      · exact hlen hfull
      · cases hmem
  | cons candidate draws ih =>
    unfold drawIds
    by_cases hlen : 5 ≤ drawn.length
    · rw [if_pos hlen]
      exact .done _ _ _ (.inl (by omega)) fun hdec htaken => enqueueOne_exhausted hid hdec htaken
    · rw [if_neg hlen]
      cases hfree : s.jobs.has candidate with
      | false =>
        have hres : resumeEnqueue s now request candidate =
            (some ⟨candidate, false⟩, insertFresh s now request candidate) := by
          rw [resumeEnqueue, hfree]
          rfl
        simp only [hres]
        exact .done _ _ _ (.inr ⟨candidate, List.mem_cons_self, hfree⟩) fun hdec htaken =>
          enqueueOne_drawn hid hdec htaken (by omega) hfree
      | true =>
        have hres : resumeEnqueue s now request candidate = (none, s) := by
          rw [resumeEnqueue, if_pos hfree]
        simp only [hres]
        have hrest := ih (drawn ++ [candidate])
        generalize drawIds s now request (drawn ++ [candidate]) draws = y at hrest
        cases hrest with
        | drawing drawn' hopen =>
          exact .drawing drawn' fun hends => hopen ((loopEnds_taken hfree).mpr hends)
        | done ids result t hends hserial =>
          refine .done ids result t ((loopEnds_taken hfree).mp hends) fun hdec htaken =>
            hserial hdec ?_
          intro id hmem
          rcases List.mem_append.mp hmem with hmem | hmem
          · exact htaken id hmem
          · rw [List.mem_singleton.mp hmem]
            exact hfree

/-- The first block is the whole enqueue, or stops in the loop of an enqueue without an id. -/
theorem startEnqueue_spec (generates : Bool) (s : Store V) (now : Millis)
    (request : EnqueueRequest V) (draws : List JobId) :
    (∃ drawn, startEnqueue generates s now request draws = (.drawing drawn, s) ∧
      request.id = none ∧ generates = true ∧ draws.length < 5) ∨
    ∃ ids result t, startEnqueue generates s now request draws = (.done ids result, t) ∧
      enqueueOne s now request ids = (result, t) := by
  unfold startEnqueue
  by_cases hask : generates = true ∧ request.id = none ∧
      (enqueueDecision s now request).isNone = true
  · rw [if_pos hask]
    have hspec := drawIds_spec s now hask.2.1 [] draws
    generalize drawIds s now request [] draws = y at hspec
    cases hspec with
    | drawing drawn hopen =>
      have hlen : draws.length < 5 := by
        by_contra hfull
        exact hopen (.inl (by rw [List.length_nil]; omega))
      exact .inl ⟨drawn, rfl, hask.2.1, hask.1, hlen⟩
    | done ids result t _ hserial =>
      have hdec := Option.isNone_iff_eq_none.mp hask.2.2
      exact .inr ⟨ids, result, t, rfl, hserial hdec fun id hmem => by cases hmem⟩
  · rw [if_neg hask]
    exact .inr ⟨_, _, _, rfl, rfl⟩

/-- An enqueue that inserts finds neither a live window nor a pending job of its key, and leaves the
key to its own job. -/
theorem enqueueOne_takes {ids : IdSource} {id : JobId} {t : Store V}
    (h : enqueueOne s now request ids = (.ok ⟨id, false⟩, t)) {dedupe : DedupePolicy}
    (hd : request.dedupe = some dedupe) :
    (∀ entry, s.dedupes.get? (dedupeMapKey request.name dedupe.key) = some entry →
      entry.Dead s now) ∧
    t.dedupes.get? (dedupeMapKey request.name dedupe.key) =
      some ⟨id, dedupe.ttlMs.map fun ttl => now + ttl⟩ := by
  have hspec : Enqueued s now request ids (.ok ⟨id, false⟩) t := by
    have hspec := enqueueOne_spec s now request ids
    rwa [h] at hspec
  cases hspec with
  | inserted counter _ _ _ hdead =>
    refine ⟨hdead dedupe hd, ?_⟩
    have hkey : requestMapKey? request = some (dedupeMapKey request.name dedupe.key) := by
      rw [requestMapKey?, hd, Option.map_some]
    rw [insertFresh_entry, if_pos hkey, hd, Option.map_some]

end

/-! ## Runs -/

/-- An enqueue that ends after a run of its generator would still decide to insert, and the ids it
found taken still are. -/
def Undisturbed (s : Calls V) : CallEvent V → Prop
  | .draw c candidate draws => ∀ request now drawn,
    s.inFlight.get? c = some ⟨request, .drawing now drawn⟩ → LoopEnds s.store drawn (candidate :: draws) →
      enqueueDecision s.store now request = none ∧ ∀ id ∈ drawn, s.store.jobs.has id = true
  | _ => True

def UndisturbedStep (generates : Bool) (s : Calls V) (e : CallEvent V) (t : Calls V) : Prop :=
  CallStep generates s e t ∧ Undisturbed s e

/-- An enqueue that inserts in this step finds no live window of its key, and no pending job when the
entry has no window; it leaves the key to its own job. -/
def TakesKey (generates : Bool) (s : Calls V) (e : CallEvent V) : Prop :=
  ∀ t served id dedupe, CallStep generates s e t → t.served = s.served ++ [served] →
    served.result = .ok ⟨id, false⟩ → served.request.dedupe = some dedupe →
      (∀ entry, s.store.dedupes.get? (dedupeMapKey served.request.name dedupe.key) = some entry →
        entry.Dead s.store served.now) ∧
      t.store.dedupes.get? (dedupeMapKey served.request.name dedupe.key) =
        some ⟨id, dedupe.ttlMs.map fun ttl => served.now + ttl⟩

/-- Only an enqueue without an id waits for a generator. -/
def Asks (generates : Bool) (s : Calls V) : Prop :=
  ∀ c request now drawn, s.inFlight.get? c = some ⟨request, .drawing now drawn⟩ →
    request.id = none ∧ generates = true

section

variable {generates : Bool} {s t : Calls V} {e : CallEvent V}

theorem yield_drawing (s : Calls V) (c : ℕ) (request : EnqueueRequest V) (now : Millis)
    (drawn : List JobId) :
    (s.yield c request now (.drawing drawn, s.store)).toSerial = s.toSerial := rfl

theorem yield_done {c : ℕ} {request : EnqueueRequest V} {now : Millis} {ids : IdSource}
    {result : Except StoreError EnqueueResult} {store : Store V}
    (h : enqueueOne s.store now request ids = (result, store)) :
    (s.yield c request now (.done ids result, store)).toSerial =
      s.toSerial.run (.enqueue c request now ids) := by
  simp only [Calls.yield, Serial.run, h]

/-- A step does one whole enqueue, one other operation or nothing. -/
theorem CallStep.serial (h : CallStep generates s e t) (hsafe : Undisturbed s e)
    (hasks : Asks generates s) :
    t.toSerial = s.toSerial ∨ ∃ task, t.toSerial = s.toSerial.run task := by
  cases h with
  | call | clock => exact .inl rfl
  | @block c request now draws =>
    rcases startEnqueue_spec generates s.store now request draws with
      ⟨drawn, heq, _⟩ | ⟨ids, result, store, heq, hserial⟩
    · rw [heq]
      exact .inl (yield_drawing ..)
    · rw [heq]
      exact .inr ⟨_, yield_done hserial⟩
  | @draw c request now drawn candidate draws hc =>
    have hspec := drawIds_spec s.store now (hasks _ _ _ _ hc).1 drawn (candidate :: draws)
    generalize drawIds s.store now request drawn (candidate :: draws) = y at hspec
    cases hspec with
    | drawing drawn' => exact .inl (yield_drawing ..)
    | done ids result store hends hserial =>
      obtain ⟨hdec, htaken⟩ := hsafe _ _ _ hc hends
      exact .inr ⟨_, yield_done (hserial hdec htaken)⟩
  | @verb verb => exact .inr ⟨.verb verb, rfl⟩

theorem Asks.set (hasks : Asks generates s) {c : ℕ} {call : Call V}
    (hcall : ∀ now drawn, call.phase = .drawing now drawn →
      call.request.id = none ∧ generates = true) :
    Asks generates { s with inFlight := s.inFlight.set c call } := by
  intro c' request now drawn hc'
  rw [JsMap.get?_set] at hc'
  split at hc'
  · cases hc'
    exact hcall now drawn rfl
  · exact hasks _ _ _ _ hc'

theorem Asks.yield (hasks : Asks generates s) {c : ℕ} {request : EnqueueRequest V} {now : Millis}
    {y : Yielded × Store V}
    (hy : ∀ drawn, y.1 = .drawing drawn → request.id = none ∧ generates = true) :
    Asks generates (s.yield c request now y) := by
  obtain ⟨yielded, store⟩ := y
  cases yielded with
  | drawing drawn =>
    have hset : Asks generates
        { s with inFlight := s.inFlight.set c ⟨request, .drawing now drawn⟩ } :=
      hasks.set fun _ _ _ => hy drawn rfl
    exact hset
  | done ids result =>
    intro c' request' now' drawn' hc'
    rw [show (s.yield c request now (.done ids result, store)).inFlight = s.inFlight.delete c from rfl,
      JsMap.get?_delete] at hc'
    split at hc'
    · cases hc'
    · exact hasks _ _ _ _ hc'

theorem Asks.step (hasks : Asks generates s) (h : CallStep generates s e t) : Asks generates t := by
  cases h with
  | call | clock => exact hasks.set fun _ _ hphase => by cases hphase
  | @block c request now draws =>
    refine hasks.yield fun drawn hdrawn => ?_
    rcases startEnqueue_spec generates s.store now request draws with
      ⟨_, _, hid, hgen, _⟩ | ⟨_, _, _, heq, _⟩
    · exact ⟨hid, hgen⟩
    · rw [heq] at hdrawn
      cases hdrawn
  | draw hc => exact hasks.yield fun _ _ => hasks _ _ _ _ hc
  | verb => exact hasks

theorem asks_start (start : Store V) : Asks generates (Calls.start start) := by
  intro c request now drawn hc
  cases hc

theorem CallStep.takesKey (hasks : Asks generates s) (hsafe : Undisturbed s e) :
    TakesKey generates s e := by
  intro t served id dedupe h happ hres hd
  have hgrows : s.served ≠ s.served ++ [served] := fun heq => by
    have hlen := congrArg List.length heq
    rw [List.length_append, List.length_singleton] at hlen
    omega
  rcases h.serial hsafe hasks with heq | ⟨task, heq⟩
  · rw [show t.served = s.served from congrArg Serial.served heq] at happ
    exact (hgrows happ).elim
  · cases task with
    | enqueue c request now ids =>
      have hserved : t.served = s.served ++ [⟨c, request, now, ids, _⟩] :=
        congrArg Serial.served heq
      have hstore : t.store = (enqueueOne s.store now request ids).2 := congrArg Serial.store heq
      rw [hserved, List.append_cancel_left_eq, List.singleton_inj] at happ
      subst happ
      exact enqueueOne_takes (Prod.ext hres hstore.symm) hd
    | verb verb =>
      rw [show t.served = s.served from (congrArg Serial.served heq :)] at happ
      exact (hgrows happ).elim

end

/-- In every interleaving in which no enqueue that waited for its generator is disturbed, the store
and all answers are those of the enqueues run one at a time, and no two enqueues both take a key: an
enqueue that inserts finds no live window and no pending job under it. -/
theorem enqueue_atomic {generates : Bool} {start : Store V} {es : List (CallEvent V)} {s : Calls V}
    (h : Run (UndisturbedStep generates) (Calls.start start) es s) :
    Explained start s ∧
    EachStep (UndisturbedStep generates) (Calls.start start) es s (TakesKey generates) := by
  have hkeep : ∀ s e t, UndisturbedStep generates (V := V) s e t → Asks generates s →
      Asks generates t := fun _ _ _ hs hasks => hasks.step hs.1
  refine ⟨?_, ?_⟩
  · obtain ⟨tasks, heq⟩ := h.serial Serial.run Calls.toSerial hkeep
      (fun s e t hs hasks => hs.1.serial hs.2 hasks) (asks_start start)
    exact ⟨tasks, s.toSerial, heq, rfl, List.Perm.refl _, rfl⟩
  · rintro es₁ e es₂ t t' - hr₁ hs -
    exact CallStep.takesKey (hr₁.preserves hkeep (asks_start start)) hs.2

/-! ## Generators that return plain ids -/

/-- The first block gets all its ids without a yield. -/
def DrawsPlain (generates : Bool) : CallEvent V → Prop
  | .block _ draws => generates = false ∨ 5 ≤ draws.length
  | _ => True

def NoneWaits (s : Calls V) : Prop :=
  ∀ c request now drawn, s.inFlight.get? c ≠ some ⟨request, .drawing now drawn⟩

theorem NoneWaits.undisturbed {s : Calls V} (h : NoneWaits s) (e : CallEvent V) : Undisturbed s e := by
  cases e with
  | draw c => exact fun request now drawn hc _ => absurd hc (h c request now drawn)
  | _ => trivial

theorem NoneWaits.step {generates : Bool} {s t : Calls V} {e : CallEvent V} (h : NoneWaits s)
    (hs : CallStep generates s e t) (hplain : DrawsPlain generates e) : NoneWaits t := by
  intro c' request' now' drawn' hc'
  cases hs with
  | call | clock =>
    rw [JsMap.get?_set] at hc'
    split at hc'
    · cases hc'
    · exact h _ _ _ _ hc'
  | @block c request now draws =>
    rcases startEnqueue_spec generates s.store now request draws with
      ⟨_, _, _, hgen, hlen⟩ | ⟨ids, result, store, heq, _⟩
    · rcases hplain with hoff | hfull
      · rw [hgen] at hoff
        cases hoff
      · omega
    · rw [heq, Calls.yield, JsMap.get?_delete] at hc'
      split at hc'
      · cases hc'
      · exact h _ _ _ _ hc'
  | draw hc => exact h _ _ _ _ hc
  | verb => exact h _ _ _ _ hc'

/-- With the counter, or a generator that returns plain ids, every interleaving is explained. -/
theorem plain_explained {generates : Bool} {start : Store V} {es : List (CallEvent V)} {s : Calls V}
    (h : Run (fun s e t => CallStep generates s e t ∧ DrawsPlain generates e) (Calls.start start)
      es s) : Explained start s := by
  have hnone : NoneWaits (Calls.start start) := fun _ _ _ _ hc => by cases hc
  obtain ⟨tasks, heq⟩ := h.serial Serial.run Calls.toSerial
    (I := fun s => NoneWaits s ∧ Asks generates s)
    (fun s e t hs hi => ⟨hi.1.step hs.1 hs.2, hi.2.step hs.1⟩)
    (fun s e t hs hi => hs.1.serial (hi.1.undisturbed e) hi.2) ⟨hnone, asks_start start⟩
  exact ⟨tasks, s.toSerial, heq, rfl, List.Perm.refl _, rfl⟩

/-! ## Two enqueues that both wait for their generators -/

def askingRequest (key : String) : EnqueueRequest Unit :=
  { EnqueueRequest.plain "" "sync" "q" () with id := none, dedupe := some ⟨key, none, false, false⟩ }

/-- Both read the clock, decide to insert and ask their generators. -/
def bothAsk (key key' : String) : List (CallEvent Unit) :=
  [.call 0 (askingRequest key), .clock 0 0, .block 0 [],
    .call 1 (askingRequest key'), .clock 1 0, .block 1 []]

/-- Enqueues of two keys: the first draws the id the second has just taken, and then a free one. -/
theorem enqueue_atomic_twoKeys :
    ∃ s : Calls Unit, s.store.jobs.keys = ["a", "b"] ∧ Explained Store.empty s := by
  have hrun : Run (UndisturbedStep true) (Calls.start Store.empty)
      (bothAsk "k" "l" ++ [.draw 1 "a" [], .draw 0 "a" [], .draw 0 "b" []]) _ :=
    .cons ⟨.call rfl, trivial⟩ (.cons ⟨.clock rfl, trivial⟩ (.cons ⟨.block rfl, trivial⟩
      (.cons ⟨.call rfl, trivial⟩ (.cons ⟨.clock rfl, trivial⟩ (.cons ⟨.block rfl, trivial⟩
        (.cons ⟨.draw rfl, fun _ _ _ hc _ => by cases hc; exact ⟨rfl, fun _ h => by cases h⟩⟩
          (.cons ⟨.draw rfl, fun _ _ _ hc _ => by cases hc; exact ⟨rfl, fun _ h => by cases h⟩⟩
            (.cons ⟨.draw rfl, fun _ _ _ hc _ => by cases hc; exact ⟨rfl, by decide⟩⟩
              (.refl _)))))))))
  exact ⟨_, rfl, (enqueue_atomic hrun).1⟩

theorem foldl_run_length (tasks : List (Task V)) (s : Serial V) :
    (tasks.foldl Serial.run s).served.length + (tasks.foldl Serial.run s).log.length =
      s.served.length + s.log.length + tasks.length := by
  induction tasks generalizing s with
  | nil => rfl
  | cons task tasks ih =>
    rw [List.foldl_cons, ih (s.run task), List.length_cons]
    cases task with
    | enqueue =>
      simp only [Serial.run, List.length_append, List.length_singleton]
      omega
    | verb =>
      simp only [Serial.run, List.length_append, List.length_singleton]
      omega

/-- Of one key both insert, which they never do one after the other. -/
theorem both_insert_unexplained :
    ¬ ∀ (es : List (CallEvent Unit)) (s : Calls Unit),
      Run (CallStep true) (Calls.start Store.empty) es s → Explained Store.empty s := by
  intro h
  have hrun : Run (CallStep true) (Calls.start Store.empty)
      (bothAsk "k" "k" ++ [.draw 0 "a" [], .draw 1 "b" []]) _ :=
    .cons (.call rfl) (.cons (.clock rfl) (.cons (.block rfl) (.cons (.call rfl)
      (.cons (.clock rfl) (.cons (.block rfl) (.cons (.draw rfl) (.cons (.draw rfl) (.refl _))))))))
  obtain ⟨tasks, t, ht, _, hserved, hlog⟩ := h _ _ hrun
  have hserved : t.served.Perm
      [⟨0, askingRequest "k", 0, .generator ["a"], .ok ⟨"a", false⟩⟩,
        ⟨1, askingRequest "k", 0, .generator ["b"], .ok ⟨"b", false⟩⟩] := hserved
  have hlog : t.log = [] := hlog
  have hlen : tasks.length = 2 := by
    have hlen := foldl_run_length tasks ⟨Store.empty, [], []⟩
    rw [← ht, hlog, hserved.length_eq] at hlen
    exact (Nat.zero_add _).symm.trans hlen.symm
  have hfresh : ∀ served ∈ t.served, served.request = askingRequest "k" ∧ served.now = 0 ∧
      (served.ids = .generator ["a"] ∨ served.ids = .generator ["b"]) ∧
      ∃ id, served.result = .ok ⟨id, false⟩ := by
    intro served hmem
    rcases List.mem_pair.mp (hserved.mem_iff.mp hmem) with rfl | rfl
    · exact ⟨rfl, rfl, .inl rfl, _, rfl⟩
    · exact ⟨rfl, rfl, .inr rfl, _, rfl⟩
  obtain ⟨first, second, rfl⟩ := List.length_eq_two.mp hlen
  subst ht
  cases first with
  | verb => cases second <;> cases hlog
  | enqueue c request now ids =>
    cases second with
    | verb => cases hlog
    | enqueue c' request' now' ids' =>
      obtain ⟨hr, hn, hids, _⟩ := hfresh _ List.mem_cons_self
      obtain ⟨hr', hn', hids', id, hres⟩ := hfresh _ (List.mem_cons_of_mem _ List.mem_cons_self)
      subst hr hn hr' hn'
      rcases hids with rfl | rfl <;> rcases hids' with rfl | rfl <;> cases hres

end EffectMq.Memory
