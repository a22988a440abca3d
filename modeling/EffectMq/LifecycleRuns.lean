import EffectMq.Library.Simulation
import EffectMq.ListAgreement
import EffectMq.MemoryJobStore.ClaimSpec
import EffectMq.RedisJobStore.EnqueueMany

/-! # Runs of the two drivers

The calls of a job's life as both drivers serve them. In every run whose calls are admitted
(`LifecycleCall.Admits`) the Redis driver answers what the in-memory driver answers, up to the fourteen
digits of a due time, and both are left with the same board (`lifecycle_agrees`).
-/

namespace EffectMq
set_option autoImplicit false
set_option maxHeartbeats 250000

open Transition Simulation

variable {V : Type} {indexes : Redis.IndexConfig}

/-! ## Calls -/

inductive LifecycleCall (V : Type)
  | enqueue (request : EnqueueRequest V)
  | claim (options : Memory.ClaimOptions)
  | ack (id : JobId) (token : String) (outcome : Redis.Settled V)
  | release (id : JobId) (token : String)
  | extendLocks (locks : List Memory.Lock) (durationMs : Millis)
  | cancel (id : JobId)
  | cancelByDedupe (name key : String)
  | retry (id : JobId)
  | promote (id : JobId)
  | remove (id : JobId)
  | pause (queue : QueueName)
  | resume (queue : QueueName)
  | getJob (id : JobId)
  | getAttempts (id : JobId)
  | counts (queue : QueueName) (state : JobState)
  | list (options : ListOptions)

/-- `page none` is a list query that dies. -/
inductive LifecycleReply (V : Type)
  | enqueued (result : Except StoreError EnqueueResult)
  | claimed (job : JobRecord V)
  | empty (nextRunAt : Option Millis)
  | settled (result : Except StoreError Unit)
  | locks (lost cancelRequested : List JobId)
  | found (result : Except StoreError Bool)
  | done
  | record (job : Option (JobRecord V))
  | ledger (attempts : List (AttemptRecord V))
  | count (n : ℤ)
  | page (result : Option (ListResult V))

namespace Memory

def ClaimResult.reply : ClaimResult V → LifecycleReply V
  | .claimed job => .claimed job
  | .empty nextRunAt _ => .empty nextRunAt

def serve (s : Store V) : Millis × LifecycleCall V → LifecycleReply V × Store V
  | (now, .enqueue request) =>
    let (result, s) := enqueueOne s now request .counter
    (.enqueued result, s)
  | (now, .claim options) =>
    let (result, s) := claim s now options
    (result.reply, s)
  | (now, .ack id token outcome) =>
    let (result, s) := ack s now id token outcome.toOutcome
    (.settled result, s)
  | (now, .release id token) =>
    let (result, s) := release s now id token
    (.settled result, s)
  | (now, .extendLocks locks durationMs) =>
    let (result, s) := extendLocks s now locks durationMs
    (.locks result.lost result.cancelRequested, s)
  | (now, .cancel id) =>
    let (result, s) := cancelJob s now id
    (.settled result, s)
  | (now, .cancelByDedupe name key) =>
    let (found, s) := cancelByDedupe s now name key
    (.found (.ok found), s)
  | (now, .retry id) =>
    let (result, s) := retry s now id
    (.settled result, s)
  | (now, .promote id) =>
    let (result, s) := promote s now id
    (.settled result, s)
  | (_, .remove id) =>
    let (removed, s) := remove s id
    (.found (.ok removed), s)
  | (_, .pause queue) => (.done, pause s queue)
  | (_, .resume queue) => (.done, resume s queue)
  | (_, .getJob id) => (.record (getJob s id), s)
  | (_, .getAttempts id) => (.ledger (getAttempts s id), s)
  | (_, .counts queue state) => (.count (counts s (some queue) state), s)
  | (_, .list options) => (.page (some (list s options)), s)

end Memory

namespace Redis

/-- A script that stops fails the call. -/
def stopped {α : Type} (message : String)
    (r : Except (Keyspace V) (Except StoreError α × Keyspace V)) : Except StoreError α × Keyspace V :=
  match r with
  | .ok r => r
  | .error ks => (.error (.jobStoreError message), ks)

def ClaimReply.reply : ClaimReply V → LifecycleReply V
  | .claimed job => .claimed job.record
  | .empty nextRunAt => .empty nextRunAt

def claimOptions (options : Memory.ClaimOptions) : ClaimOptions :=
  ⟨options.queue, options.names, options.token, options.lockDurationMs⟩

/-- The pointer is read first; a job that is gone or over counts as none. -/
def cancelByDedupe (ks : Keyspace V) (name key : String) (now : ℤ) : Except StoreError Bool × Keyspace V :=
  match ks.dedupes.get? (dedupeStoreKey name key) with
  | none => (.ok false, ks)
  | some entry =>
    if entry.jobId = "" then (.ok false, ks)
    else
      match stopped "cancel failed" (cancel ks entry.jobId now) with
      | (.ok (), ks) => (.ok true, ks)
      | (.error (.jobNotFound _), ks) | (.error (.jobNotCancellable _ _), ks) => (.ok false, ks)
      | (.error e, ks) => (.error e, ks)

/-- `tonumber` is Lua's; the list script reads its cursor with it. -/
def serve (tonumber : String → Option ℤ) (indexes : IndexConfig) (ks : Keyspace V) :
    Millis × LifecycleCall V → LifecycleReply V × Keyspace V
  | (now, .enqueue request) =>
    let (result, session) := Driver.enqueueJob ⟨indexes, none⟩ now request ⟨ks, 0⟩
    (.enqueued result, session.ks)
  | (now, .claim options) =>
    let (result, ks) := claim ks (claimOptions options) now
    (result.reply, ks)
  | (now, .ack id token outcome) =>
    let (result, ks) := stopped "ack failed" (ack ks id token outcome now)
    (.settled result, ks)
  | (now, .release id token) =>
    let (result, ks) := stopped "release failed" (release ks id token now)
    (.settled result, ks)
  | (now, .extendLocks locks durationMs) =>
    let (result, ks) := extendLocks ks (locks.map fun lock => ⟨lock.id, lock.token⟩) durationMs now
    (.locks result.lost result.cancel, ks)
  | (now, .cancel id) =>
    let (result, ks) := stopped "cancel failed" (cancel ks id now)
    (.settled result, ks)
  | (now, .cancelByDedupe name key) =>
    let (found, ks) := cancelByDedupe ks name key now
    (.found found, ks)
  | (now, .retry id) =>
    let (result, ks) := retry ks id now
    (.settled result, ks)
  | (now, .promote id) =>
    let (result, ks) := promote ks id now
    (.settled result, ks)
  | (_, .remove id) =>
    let (removed, ks) := remove ks id
    (.found (.ok removed), ks)
  | (_, .pause queue) => (.done, pause ks queue)
  | (_, .resume queue) => (.done, resume ks queue)
  | (_, .getJob id) => (.record ((ks.jobs.get? id).map JobHash.record), ks)
  | (_, .getAttempts id) => (.ledger (ks.attempts id), ks)
  | (_, .counts queue state) => (.count (ks.counts queue state), ks)
  | (_, .list options) =>
    match list tonumber indexes ks options with
    | .ok (some (page, ks)) => (.page (some page.reply), ks)
    | _ => (.page none, ks)

end Redis

/-- A due time passes `cjson`. -/
def LifecycleReply.sent : LifecycleReply V → LifecycleReply V
  | .empty nextRunAt => .empty (nextRunAt.map Redis.cjsonNumber)
  | reply => reply

/-- Requests come with ids and keys that are not empty and with retention numbers that JSON can hold. A
claim finds no due job in another queue: the in-memory driver promotes those, too. A list query has a
route, its cursor, if any, is one that a page carried, and the ids are in the basic plane, where both
drivers order them alike. -/
def LifecycleCall.Admits (indexes : Redis.IndexConfig) (s : Memory.Store V) :
    Millis × LifecycleCall V → Prop
  | (_, .enqueue request) =>
    (∃ id, request.id = some id ∧ id ≠ "") ∧
      (∀ dedupe, request.dedupe = some dedupe → dedupe.key ≠ "") ∧ Redis.Readable request.keep
  | (now, .claim options) => Memory.NoneDueElsewhere s now options.queue
  | (_, .list options) =>
    (∃ routed, Redis.route indexes options = .ok routed) ∧
      (∃ place : Option Redis.Entry, options.cursor = place.map Redis.cursorText ∧
        ∀ e, place = some e → CodeUnits.Basic e.1) ∧ s.BasicIds
  | _ => True

/-! ## Claims -/

namespace Redis

theorem promoteDue_frame (ks : Keyspace V) (queue : QueueName) (now : ℤ) :
    (promoteDue ks queue now).beside = ks.beside ∧ (promoteDue ks queue now).attempts = ks.attempts := by
  unfold promoteDue
  generalize (ks.delayed queue).range _ = ids
  induction ids generalizing ks with
  | nil => exact ⟨rfl, rfl⟩
  | cons id ids ih => exact ih (promoteOne queue ks id)

theorem claim_frame (ks : Keyspace V) (options : ClaimOptions) (now : ℤ) :
    (claim ks options now).2.beside = ks.beside ∧ (claim ks options now).2.attempts = ks.attempts ∧
      (claim ks options now).2.seq = ks.seq := by
  obtain ⟨hbeside, hattempts⟩ := promoteDue_frame ks options.queue now
  have hseq := seq_promoteDue ks options.queue now
  unfold claim
  dsimp only
  generalize promoteDue ks options.queue now = ks₁ at *
  split
  · exact ⟨hbeside, hattempts, hseq⟩
  · split
    · exact ⟨hbeside, hattempts, hseq⟩
    · split
      · exact ⟨hbeside, hattempts, hseq⟩
      · exact ⟨hbeside, hattempts, hseq⟩

end Redis

/-- A promoted job on the board is under its id. -/
theorem id_promoted {ks : Redis.Keyspace V} (h : Redis.Consistent indexes ks) {id : JobId}
    {job : Redis.JobHash V} (hjob : ks.jobs.get? id = some job) (queue : QueueName) (now : Millis)
    (attempts : List (AttemptRecord V)) : ((Redis.promoted queue now job).stored attempts).id = id := by
  have hkeyed := (h.sound id job hjob).keyed
  unfold Redis.promoted
  split <;> exact hkeyed

/-- Promotion leaves a job its queue and its name. -/
theorem promoted_wanted (job : Redis.JobHash V) (options : Memory.ClaimOptions) (now : Millis)
    (attempts : List (AttemptRecord V)) :
    ((Redis.promoted options.queue now job).stored attempts).Wanted options ↔
      job.queue = options.queue ∧ job.name ∈ options.names := by
  unfold Redis.promoted
  split <;> exact Iff.rfl

/-- A claim writes the same job, promoted or not. -/
theorem claimJob_promoted (job : Redis.JobHash V) (options : Memory.ClaimOptions) (now : Millis)
    (attempts : List (AttemptRecord V)) :
    Memory.claimJob ((Redis.promoted options.queue now job).stored attempts) options now =
      (Redis.claimHash job (Redis.claimOptions options) now).stored attempts := by
  unfold Redis.promoted
  split <;> rfl

section Claim

variable {ks : Redis.Keyspace V} {s : Memory.Store V} (h : Agrees indexes ks s)
  {options : Memory.ClaimOptions} {now : Millis}
  (helsewhere : Memory.NoneDueElsewhere s now options.queue)

include h helsewhere

/-- Both drivers promote the same jobs. -/
theorem Agrees.promotes (id : JobId) : (Memory.promoteDue s now).jobs.get? id =
    (ks.jobs.get? id).map fun job => (Redis.promoted options.queue now job).stored (ks.attempts id) := by
  have hjob := jobs_of_board h.board id
  rw [Memory.promoteDue, JsMap.get?_mapValues, hjob, Option.map_map]
  refine Option.map_congr fun job hmem => ?_
  have hfound := h.found hmem
  rw [Function.comp_apply, Redis.promoted]
  by_cases hdue : job.state = .delayed ∧ job.runAt ≤ now
  · have hqueue : job.queue = options.queue := by
      by_contra hne
      exact absurd hdue.2 (not_le.mpr (helsewhere id _ hfound hne hdue.1))
    rw [if_pos (by exact hdue), if_pos ⟨hdue.1, hqueue, hdue.2⟩]
    rfl
  · rw [if_neg (by exact hdue), if_neg (fun hall => hdue ⟨hall.1, hall.2.2⟩)]

theorem Agrees.runnable (job' : Memory.MemJob V) :
    Memory.Runnable (Memory.promoteDue s now) options job' ↔
      ∃ id job, ks.jobs.get? id = some job ∧ Redis.Eligible (Redis.claimOptions options) now job ∧
        job' = (Redis.promoted options.queue now job).stored (ks.attempts id) := by
  constructor
  · rintro ⟨hget, hwanted, hwaiting⟩
    rw [h.promotes helsewhere] at hget
    obtain ⟨job, hjob, hstored⟩ := Option.map_eq_some_iff.mp hget
    rw [← hstored] at hwanted hwaiting
    have hwants := (promoted_wanted job options now _).mp hwanted
    exact ⟨_, job, hjob, (Redis.promoted_eligible hwants).mp hwaiting, hstored.symm⟩
  · rintro ⟨id, job, hjob, heligible, rfl⟩
    have hwants : job.queue = options.queue ∧ job.name ∈ options.names := ⟨heligible.1, heligible.2.1⟩
    refine ⟨?_, (promoted_wanted job options now _).mpr hwants,
      (Redis.promoted_eligible hwants).mpr heligible⟩
    rw [id_promoted h.sound.consistent hjob, h.promotes helsewhere, hjob, Option.map_some]

theorem Agrees.upcoming {id : JobId} {job : Redis.JobHash V} (hjob : ks.jobs.get? id = some job)
    (hup : Redis.Upcoming (Redis.claimOptions options) now job) : ∃ job',
      (Memory.promoteDue s now).jobs.get? id = some job' ∧ job'.Wanted options ∧ job'.state = .delayed ∧
        job'.runAt = job.runAt := by
  have hwants : job.queue = options.queue ∧ job.name ∈ options.names := ⟨hup.1, hup.2.1⟩
  obtain ⟨-, -, -, -, hrunAt⟩ := Redis.promoted_keeps options.queue now job
  refine ⟨(Redis.promoted options.queue now job).stored (ks.attempts id), ?_,
    (promoted_wanted job options now _).mpr hwants, (Redis.promoted_upcoming hwants).mpr hup, hrunAt⟩
  rw [h.promotes helsewhere, hjob, Option.map_some]

/-- Both drivers name the same due time. -/
theorem Agrees.nextDue {nextRunAt r : Option Millis}
    (hredis : Redis.NextDue ks (Redis.claimOptions options) now nextRunAt)
    (hmemory : Memory.NextDue (Memory.promoteDue s now) options r) :
    nextRunAt = r.map Redis.cjsonNumber := by
  have hback : ∀ t, r = some t → ∃ id job, ks.jobs.get? id = some job ∧
      Redis.Upcoming (Redis.claimOptions options) now job ∧ job.runAt = t := by
    intro t ht
    obtain ⟨id, job', hget, hwanted, hdelayed, rfl⟩ := hmemory.1 t ht
    rw [h.promotes helsewhere] at hget
    obtain ⟨job, hjob, rfl⟩ := Option.map_eq_some_iff.mp hget
    have hwants := (promoted_wanted job options now _).mp hwanted
    obtain ⟨-, -, -, -, hrunAt⟩ := Redis.promoted_keeps options.queue now job
    exact ⟨id, job, hjob, (Redis.promoted_upcoming hwants).mp hdelayed, hrunAt.symm⟩
  rcases hredis with ⟨rfl, hnone⟩ | ⟨id, job, hjob, hup, rfl, hleast⟩
  · cases hr : r with
    | none => rfl
    | some t =>
      obtain ⟨id, job, hjob, hup, -⟩ := hback t hr
      exact absurd hup (hnone id job hjob)
  · obtain ⟨job', hget, hwanted, hdelayed, hrunAt⟩ := h.upcoming helsewhere hjob hup
    obtain ⟨t, rfl, hle⟩ := hmemory.2 id job' hget hwanted hdelayed
    obtain ⟨id₁, job₁, hjob₁, hup₁, rfl⟩ := hback t rfl
    have hleast₁ := hleast id₁ job₁ hjob₁ hup₁
    have hsame : job.runAt = job₁.runAt := le_antisymm hleast₁ (hle.trans hrunAt.le)
    rw [hsame]
    rfl

theorem Agrees.dueBoard : (Memory.promoteDue s now).board =
    { ks.board with jobs := fun id => (ks.jobs.get? id).map fun job =>
        (Redis.promoted options.queue now job).stored (ks.attempts id) } := by
  have hjobs : (Memory.promoteDue s now).board.jobs = fun id => (ks.jobs.get? id).map fun job =>
      (Redis.promoted options.queue now job).stored (ks.attempts id) :=
    funext (h.promotes helsewhere)
  rw [h.board, ← hjobs]
  rfl

/-- Both drivers serve the same job: of two, each could not be ahead of the other. -/
theorem Agrees.foremost {first id : JobId} {served job : Redis.JobHash V}
    (hserved : ks.jobs.get? first = some served)
    (heligible : Redis.Eligible (Redis.claimOptions options) now served)
    (hahead : ∀ id' other, ks.jobs.get? id' = some other →
      Redis.Eligible (Redis.claimOptions options) now other → id' ≠ first → Redis.Ahead served other)
    (hjob : ks.jobs.get? id = some job) (heligible' : Redis.Eligible (Redis.claimOptions options) now job)
    (hforemost : Memory.Foremost (Memory.promoteDue s now) options
      ((Redis.promoted options.queue now job).stored (ks.attempts id))) : id = first := by
  by_contra hne
  have hredis := hahead id job hjob heligible' hne
  have hother : (Redis.promoted options.queue now served).stored (ks.attempts first) ≠
      (Redis.promoted options.queue now job).stored (ks.attempts id) := by
    intro heq
    have hids := congrArg (fun job : Memory.MemJob V => job.id) heq
    rw [id_promoted h.sound.consistent hserved, id_promoted h.sound.consistent hjob] at hids
    exact hne hids.symm
  have hrunnable := (h.runnable helsewhere _).mpr ⟨first, served, hserved, heligible, rfl⟩
  have hmemory := hforemost.2 _ hrunnable hother
  obtain ⟨-, -, hpriority, hseq, -⟩ := Redis.promoted_keeps options.queue now served
  obtain ⟨-, -, hpriority', hseq', -⟩ := Redis.promoted_keeps options.queue now job
  unfold Redis.Ahead at hredis
  simp only [Redis.JobHash.stored, hpriority, hseq, hpriority', hseq'] at hmemory
  omega

theorem Agrees.claim :
    (Redis.claim ks (Redis.claimOptions options) now).1.reply = (Memory.claim s now options).1.reply.sent ∧
      (Redis.claim ks (Redis.claimOptions options) now).2.board = (Memory.claim s now options).2.board := by
  have hlaw := Redis.claim_law h.sound h.numbered (Redis.claimOptions options) now
  obtain ⟨hbeside, hattempts, hseq⟩ := Redis.claim_frame ks (Redis.claimOptions options) now
  have hstep : Memory.Step s.toCore (.promoteDue now) (Memory.promoteDue s now).toCore := .promoteDue now
  have hserves := Memory.claim_serves (hstep.keyed h.keyed)
    (h.seqInv.placeless h.keyed rfl (.single hstep trivial)) options
  have hpaused : ks.paused = s.paused := congrArg Board.paused h.board
  have hdue := h.dueBoard helsewhere
  generalize Redis.claim ks (Redis.claimOptions options) now = answer at *
  generalize Memory.claim s now options = answer' at *
  have hboards : ∀ jobs : JobId → Option (Memory.MemJob V), (∀ id, answer.2.board.jobs id = jobs id) →
      answer.2.board = { ks.board with jobs } := by
    intro jobs hjobs
    have hboard := Redis.board_of_beside hbeside hjobs
    rw [hseq] at hboard
    exact hboard
  by_cases hempty : options.queue ∈ ks.paused ∨
      ∀ id job, ks.jobs.get? id = some job → ¬ Redis.Eligible (Redis.claimOptions options) now job
  · obtain ⟨nextRunAt, hreply, hnext, hjobs⟩ := hlaw.empty hempty
    have hempty' : options.queue ∈ (Memory.promoteDue s now).paused ∨
        ¬ ∃ job, Memory.Runnable (Memory.promoteDue s now) options job := by
      refine hempty.imp (fun hp => (hpaused ▸ hp : options.queue ∈ s.paused)) fun hnone => ?_
      rintro ⟨job', hrunnable⟩
      obtain ⟨id, job, hjob, heligible, -⟩ := (h.runnable helsewhere job').mp hrunnable
      exact hnone id job hjob heligible
    obtain ⟨r, hnext', rfl⟩ := hserves.empty hempty'
    rw [hreply]
    refine ⟨congrArg LifecycleReply.empty (h.nextDue helsewhere hnext hnext'), ?_⟩
    refine (hboards _ fun id => ?_).trans hdue.symm
    simp only [Redis.Keyspace.board, hjobs, hattempts, Option.map_map]
    rfl
  · obtain ⟨hopen, hany⟩ := not_or.mp hempty
    push Not at hany
    obtain ⟨id₀, job₀, hjob₀, heligible₀⟩ := hany
    obtain ⟨first, served, hserved, heligible, hahead, hreply, hjobs⟩ :=
      hlaw.claimed hopen id₀ job₀ hjob₀ heligible₀
    have hrunnable := (h.runnable helsewhere _).mpr ⟨first, served, hserved, heligible, rfl⟩
    obtain ⟨first', hfirst', rfl⟩ := hserves.claimed
      (by exact fun hp => hopen (hpaused ▸ hp)) ⟨_, hrunnable⟩
    obtain ⟨id₁, job₁, hjob₁, heligible₁, rfl⟩ := (h.runnable helsewhere first').mp hfirst'.1
    have hid := h.foremost helsewhere hserved heligible hahead hjob₁ heligible₁ hfirst'
    subst hid
    obtain rfl := Option.some.inj (hjob₁.symm.trans hserved)
    rw [hreply, claimJob_promoted]
    refine ⟨rfl, ?_⟩
    have hkeyed :
        ((Redis.claimHash job₁ (Redis.claimOptions options) now).stored (ks.attempts id₁)).id = id₁ :=
      (h.sound.consistent.sound id₁ job₁ hjob₁).keyed
    dsimp only
    rw [Memory.board_putJob, hdue, Board.put, hkeyed]
    refine hboards _ fun id => ?_
    simp only [Redis.Keyspace.board, hjobs, hattempts, Function.update_apply]
    split
    next hid =>
      subst hid
      rfl
    next =>
      rw [Option.map_map]
      rfl

end Claim

/-! ## What is kept along a run -/

section Plain

/-- A job with an id, without a manifest, whose retention numbers are read as they were written. -/
structure PlainJob (job : Redis.JobHash V) : Prop where
  named : job.id ≠ ""
  flow : job.flow = none
  readable : Redis.Readable job.keep

def PlainJobs (ks : Redis.Keyspace V) : Prop :=
  ∀ id job, ks.jobs.get? id = some job → PlainJob job

/-- Inserts and replaces of plain requests, and no fan-out. -/
def PlainLabel : Redis.Label V → Prop
  | .insert id request _ _ => id ≠ "" ∧ Redis.Readable request.keep
  | .change _ (.replace request _) => Redis.Readable request.keep
  | .change _ (.park _ _) | .change _ (.land _ _ _) | .change _ (.cancelFanOut _ _) => False
  | _ => True

theorem PlainJob.change {job : Redis.JobHash V} {id : JobId} {c : Redis.Change V} (h : PlainJob job)
    (hc : PlainLabel (.change id c)) : PlainJob (c.apply job) := by
  obtain ⟨hnamed, hflow, hreadable⟩ := h
  cases c with
  | replace request now => exact ⟨hnamed, hflow, hc⟩
  | park | land | cancelFanOut => exact hc.elim
  | count outcome =>
    refine ⟨hnamed, ?_, hreadable⟩
    simp only [Redis.Change.apply, hflow, Option.map_none]
  | settle marked =>
    refine ⟨hnamed, ?_, hreadable⟩
    simp only [Redis.Change.apply, hflow, Option.map_none]
  | finish e now => cases e <;> exact ⟨hnamed, hflow, hreadable⟩
  | _ => exact ⟨hnamed, hflow, hreadable⟩

theorem PlainJobs.step {ks ks' : Redis.Keyspace V} {l : Redis.Label V} (hs : Redis.Step indexes ks l ks')
    (hl : PlainLabel l) (h : PlainJobs ks) : PlainJobs ks' := by
  intro id' job' hjob'
  cases hs with
  | quiet hq ha =>
    rw [hq.jobs] at hjob'
    exact h id' job' hjob'
  | insert request key now hnone hjob hseq hw ha =>
    rename_i id
    by_cases hid : id' = id
    · subst hid
      obtain rfl := Option.some.inj (hjob.symm.trans hjob')
      exact ⟨hl.1, rfl, hl.2⟩
    · rw [hw.others id' hid] at hjob'
      exact h id' job' hjob'
  | change c hjob hc hm =>
    rename_i id job
    rw [hm.jobs] at hjob'
    split at hjob'
    · obtain rfl := Option.some.inj hjob'
      exact (h id job hjob).change hl
    · exact h id' job' hjob'
  | remove hgone hidle hnone hw ha | prune hgone hterminal hnone hw ha =>
    rename_i id job
    by_cases hid : id' = id
    · subst hid
      rw [hnone] at hjob'
      cases hjob'
    · rw [hw.others id' hid] at hjob'
      exact h id' job' hjob'

end Plain

/-- The two stores of a run with so many calls to come: the numbers do not run out. -/
structure Alongside (indexes : Redis.IndexConfig) (n : ℕ) (s : Memory.Store V) (ks : Redis.Keyspace V) :
    Prop where
  agrees : Agrees indexes ks s
  plain : PlainJobs ks
  room : ks.seq + n < 10 ^ 16

section Next

variable {ks : Redis.Keyspace V} {s : Memory.Store V} (now : Millis) (script : Redis.Script V)
  (op : Memory.Op V)

/-- Two calls that leave the same board leave two stores in good order. -/
theorem Agrees.next (h : Agrees indexes ks s) (hfits : script.Fits indexes)
    (hseq : (ks.run indexes now script).seq < 10 ^ 16)
    (hboard : (ks.run indexes now script).board = (Memory.exec s now op).board) :
    Agrees indexes (ks.run indexes now script) (Memory.exec s now op) := by
  have hcall : Redis.Calls indexes ks (script, now) (ks.run indexes now script) :=
    .call script now hfits hseq
  exact
    { board := hboard
      sound := hcall.sound h.sound
      wellFormed := hcall.allHashes (fun _ _ _ _ _ => Redis.wellFormed_jobHash ..)
        (fun _ _ c hc hformed => hformed.change c hc) h.sound h.wellFormed
      numbered := hcall.numbered h.sound h.numbered
      keyed := Memory.exec_keyed h.keyed now op
      seqInv := Memory.exec_seqInv h.seqInv h.keyed now op }

theorem Alongside.next {n : ℕ} (h : Alongside indexes (n + 1) s ks) (hfits : script.Fits indexes)
    (hlabels : ∀ l, Redis.Allows now script l → PlainLabel l)
    (hdraws : (Memory.exec s now op).seq ≤ s.seq + 1)
    (hboard : (ks.run indexes now script).board = (Memory.exec s now op).board) :
    Alongside indexes n (Memory.exec s now op) (ks.run indexes now script) := by
  have hseq : (ks.run indexes now script).seq = (Memory.exec s now op).seq := congrArg Board.seq hboard
  have hstart : ks.seq = s.seq := h.agrees.seq
  have hroom := h.room
  have hagrees := h.agrees.next now script op hfits (by omega) hboard
  have hdoes := Redis.run_does h.agrees.sound.consistent h.agrees.sound.seq now script hfits
  refine ⟨hagrees, ?_, by omega⟩
  exact hdoes.preserves (fun _ l _ hl hs hI => PlainJobs.step hs (hlabels l hl) hI) h.plain

/-- A call that draws no number. -/
theorem Alongside.placeless {n : ℕ} (h : Alongside indexes (n + 1) s ks) (hfits : script.Fits indexes)
    (hlabels : ∀ l, Redis.Allows now script l → PlainLabel l) (hop : Memory.PlacelessOp op)
    (hboard : (ks.run indexes now script).board = (Memory.exec s now op).board) :
    Alongside indexes n (Memory.exec s now op) (ks.run indexes now script) := by
  have hseq := Memory.exec_seq s now hop
  exact h.next now script op hfits hlabels (by omega) hboard

end Next

/-! ## Numbers drawn -/

namespace Memory

theorem enqueueOne_draws (s : Store V) (now : Millis) (request : EnqueueRequest V) (ids : IdSource) :
    (enqueueOne s now request ids).2.seq ≤ s.seq + 1 := by
  have hspec := enqueueOne_spec s now request ids
  generalize (enqueueOne s now request ids).1 = result at hspec
  generalize (enqueueOne s now request ids).2 = t at hspec ⊢
  cases hspec with
  | duplicate | exhausted | pending => exact Nat.le_succ _
  | replaced =>
    rw [signalWake_seq, aside_seq.setWindow, aside_seq.putJob]
    exact Nat.le_succ _
  | windowed =>
    split
    · rw [aside_seq.setWindow]
      exact Nat.le_succ _
    · exact Nat.le_succ _
  | inserted counter =>
    unfold insertFresh
    dsimp only
    split <;> exact le_rfl

theorem ack_draws (s : Store V) (now : Millis) (id : JobId) (token : String) (outcome : Redis.Settled V) :
    (ack s now id token outcome.toOutcome).2.seq ≤ s.seq + 1 := by
  unfold ack
  split
  · exact Nat.le_succ _
  next job hjob =>
    split
    · exact Nat.le_succ _
    · split
      · exact Nat.le_succ _
      · cases outcome with
        | complete exit | fail exit | cancelled =>
          refine Eq.trans_le ?_ (Nat.le_succ _)
          exact aside_seq.terminate ..
        | retry delayMs exit =>
          dsimp only [Redis.Settled.toOutcome, ackOutcome]
          split
          · rw [aside_seq.markCancelled]
            exact Nat.le_succ _
          · rw [signalWake_seq, aside_seq.putJob]

theorem retry_draws (s : Store V) (now : Millis) (id : JobId) : (retry s now id).2.seq ≤ s.seq + 1 := by
  unfold retry
  split
  · exact Nat.le_succ _
  · split
    · exact Nat.le_succ _
    · dsimp only
      rw [signalWake_seq, aside_seq.putJob]

end Memory

/-! ## Locks and reads -/

/-- What one lock does to the store does not depend on the answer so far. -/
theorem Redis.extendLock_store (reply reply' : Redis.ExtendReply) (ks : Redis.Keyspace V)
    (lock : Redis.Lock) (durationMs now : Millis) :
    (Redis.extendLock now durationMs (reply, ks) lock).2 =
      (Redis.extendLock now durationMs (reply', ks) lock).2 := by
  unfold Redis.extendLock
  dsimp only
  split
  · rfl
  · split
    · rfl
    · split <;> rfl

theorem Memory.extendLock_store (result result' : Memory.ExtendLocksResult) (s : Memory.Store V)
    (lock : Memory.Lock) (durationMs now : Millis) :
    (Memory.extendLock now durationMs (result, s) lock).2 =
      (Memory.extendLock now durationMs (result', s) lock).2 := by
  unfold Memory.extendLock
  dsimp only
  split
  · rfl
  · split
    · rfl
    · split <;> rfl

section Reads

variable {ks : Redis.Keyspace V} {s : Memory.Store V} (h : Agrees indexes ks s)

include h

theorem Agrees.extendLock (lock : Memory.Lock) (durationMs now : Millis) (reply : Redis.ExtendReply)
    (result : Memory.ExtendLocksResult) (hlost : reply.lost = result.lost)
    (hcancel : reply.cancel = result.cancelRequested) :
    (Redis.extendLock now durationMs (reply, ks) ⟨lock.id, lock.token⟩).1.lost =
        (Memory.extendLock now durationMs (result, s) lock).1.lost ∧
      (Redis.extendLock now durationMs (reply, ks) ⟨lock.id, lock.token⟩).1.cancel =
        (Memory.extendLock now durationMs (result, s) lock).1.cancelRequested ∧
      (Redis.extendLock now durationMs (reply, ks) ⟨lock.id, lock.token⟩).2.board =
        (Memory.extendLock now durationMs (result, s) lock).2.board := by
  unfold Redis.extendLock Memory.extendLock
  dsimp only
  cases hjob : ks.jobs.get? lock.id with
  | none =>
    rw [h.absent hjob]
    exact ⟨by rw [hlost], hcancel, h.board⟩
  | some job =>
    have hlocks := h.locks hjob lock.token
    rw [h.found hjob]
    dsimp only
    by_cases hgone : job.state ≠ .active ∨ job.lockToken ≠ lock.token
    · rw [if_pos hgone, if_pos (hlocks.mpr hgone)]
      exact ⟨by rw [hlost], hcancel, h.board⟩
    · rw [if_neg hgone, if_neg (fun hl => hgone (hlocks.mp hl))]
      by_cases hflag : job.cancelRequested = true
      · rw [if_pos hflag, if_pos (by exact hflag)]
        exact ⟨hlost, by rw [hcancel], h.board⟩
      · rw [if_neg hflag, if_neg (by exact hflag)]
        refine ⟨hlost, hcancel, ?_⟩
        have hactive : job.state = .active := not_not.mp (not_or.mp hgone).1
        have htoken : job.lockToken = lock.token := not_not.mp (not_or.mp hgone).2
        have hm := Redis.moves_extend h.sound.consistent hjob hactive (now + durationMs)
        obtain ⟨t, ht⟩ := Option.isSome_iff_exists.mp ((h.wellFormed.some hjob).locked.mp hactive)
        dsimp only
        rw [h.moved hjob hm rfl h.seq, Memory.board_putJob]
        simp only [Redis.Change.apply, Redis.JobHash.stored, ht, Option.map_some]
        rfl

theorem Agrees.counts (queue : QueueName) (state : JobState) :
    ks.counts queue state = (Memory.counts s (some queue) state : ℕ) := by
  rw [h.sound.consistent.counts, Memory.counts]
  have hjobs : ∀ id, s.jobs.get? id =
      (ks.jobs.mapValues fun id job => job.stored (ks.attempts id)).get? id := by
    intro id
    rw [JsMap.get?_mapValues, jobs_of_board h.board]
  rw [JsMap.countP_values_congr hjobs, JsMap.values, JsMap.values, JsMap.mapValues, List.map_map,
    List.countP_map, List.countP_map]
  refine congrArg Nat.cast (List.countP_congr fun entry _ => ?_)
  simp [Redis.inState, Redis.JobHash.stored, and_comm]

theorem Agrees.getAttempts (id : JobId) : ks.attempts id = Memory.getAttempts s id := by
  rw [Memory.getAttempts]
  cases hjob : ks.jobs.get? id with
  | none => rw [h.absent hjob, h.wellFormed.none hjob]
  | some job =>
    rw [h.found hjob]
    rfl

theorem Agrees.getJob (id : JobId) :
    (ks.jobs.get? id).map Redis.JobHash.record = Memory.getJob s id := by
  rw [Memory.getJob, jobs_of_board h.board, Option.map_map]
  rfl

end Reads

/-- A lock at a time. -/
theorem Agrees.extendLocks {ks : Redis.Keyspace V} {s : Memory.Store V} (h : Agrees indexes ks s)
    (locks : List Memory.Lock) (durationMs now : Millis) (reply : Redis.ExtendReply)
    (result : Memory.ExtendLocksResult) (hlost : reply.lost = result.lost)
    (hcancel : reply.cancel = result.cancelRequested) :
    ((locks.map fun lock => (⟨lock.id, lock.token⟩ : Redis.Lock)).foldl
        (Redis.extendLock now durationMs) (reply, ks)).1.lost =
        (locks.foldl (Memory.extendLock now durationMs) (result, s)).1.lost ∧
      ((locks.map fun lock => (⟨lock.id, lock.token⟩ : Redis.Lock)).foldl
        (Redis.extendLock now durationMs) (reply, ks)).1.cancel =
        (locks.foldl (Memory.extendLock now durationMs) (result, s)).1.cancelRequested ∧
      ((locks.map fun lock => (⟨lock.id, lock.token⟩ : Redis.Lock)).foldl
        (Redis.extendLock now durationMs) (reply, ks)).2.board =
        (locks.foldl (Memory.extendLock now durationMs) (result, s)).2.board := by
  induction locks generalizing ks s reply result with
  | nil => exact ⟨hlost, hcancel, h.board⟩
  | cons lock locks ih =>
    obtain ⟨hlost', hcancel', -⟩ := h.extendLock lock durationMs now reply result hlost hcancel
    obtain ⟨-, -, hboard⟩ := h.extendLock lock durationMs now ⟨[], []⟩ ⟨[], []⟩ rfl rfl
    have hredis : ∀ reply', (Redis.extendLock now durationMs (reply', ks) ⟨lock.id, lock.token⟩).2 =
        ks.run indexes now (.extendLocks [⟨lock.id, lock.token⟩] durationMs) :=
      fun reply' => Redis.extendLock_store reply' ⟨[], []⟩ ..
    have hmemory : ∀ result', (Memory.extendLock now durationMs (result', s) lock).2 =
        Memory.exec s now (.extendLocks [lock] durationMs) :=
      fun result' => Memory.extendLock_store result' ⟨[], []⟩ ..
    rw [hredis, hmemory] at hboard
    have hplaceless : Memory.PlacelessOp (V := V) (.extendLocks [lock] durationMs) := trivial
    have hdrawn : (ks.run indexes now (.extendLocks [⟨lock.id, lock.token⟩] durationMs)).seq = ks.seq :=
      (congrArg Board.seq hboard).trans ((Memory.exec_seq s now hplaceless).trans h.seq.symm)
    have hnext := h.next now (.extendLocks [⟨lock.id, lock.token⟩] durationMs) (.extendLocks [lock] durationMs)
      trivial (hdrawn.trans_lt h.sound.seq) hboard
    rw [← hredis reply, ← hmemory result] at hnext
    rw [List.map_cons, List.foldl_cons, List.foldl_cons]
    exact ih hnext _ _ hlost' hcancel'

/-! ## Runs -/

theorem Settles.stopped {α : Type}
    {r : Except (Redis.Keyspace V) (Except StoreError α × Redis.Keyspace V)}
    {r' : Except StoreError α × Memory.Store V} (h : Settles r r') (message : String) :
    (Redis.stopped message r).1 = r'.1 ∧ (Redis.stopped message r).2 = Redis.leaves r ∧
      (Redis.leaves r).board = r'.2.board := by
  obtain ⟨⟨answer, ks⟩, rfl, hanswer, hboard⟩ := h
  exact ⟨hanswer, rfl, hboard⟩

section Serve

variable {n : ℕ} {ks : Redis.Keyspace V} {s : Memory.Store V}

/-- A call that changes nothing. -/
theorem Alongside.rest (h : Alongside indexes (n + 1) s ks) : Alongside indexes n s ks := by
  have hroom := h.room
  exact ⟨h.agrees, h.plain, by omega⟩

theorem Alongside.cancelable (h : Alongside indexes (n + 1) s ks) (id : JobId) (now : Millis) :
    Settles (Redis.cancel ks id now) (Memory.cancelJob s now id) ∧
      Alongside indexes n (Memory.cancelJob s now id).2 (Redis.leaves (Redis.cancel ks id now)) := by
  have hsettles := h.agrees.cancel (fun job hjob => ⟨(h.plain id job hjob).flow,
    (h.plain id job hjob).readable⟩) now
  exact ⟨hsettles, h.placeless now (.cancel id) (.cancel id) trivial (fun l hl => by cases hl <;> trivial)
    trivial (hsettles.stopped "").2.2⟩

theorem cancelJob_errors {id : JobId} {now : Millis} {e : StoreError}
    (he : (Memory.cancelJob s now id).1 = .error e) :
    e = .jobNotFound id ∨ ∃ state, e = .jobNotCancellable id state := by
  unfold Memory.cancelJob at he
  split at he
  · exact .inl (Except.error.inj he).symm
  · split at he
    · cases he
    · cases he
    · cases he
    · cases he
    · exact .inr ⟨_, (Except.error.inj he).symm⟩

theorem Alongside.cancelByDedupe (h : Alongside indexes (n + 1) s ks) (name key : String) (now : Millis) :
    (Redis.cancelByDedupe ks name key now).1 = .ok (Memory.cancelByDedupe s now name key).1 ∧
      Alongside indexes n (Memory.cancelByDedupe s now name key).2
        (Redis.cancelByDedupe ks name key now).2 := by
  have hentry := h.agrees.entry (Redis.dedupeStoreKey name key)
  have hkey : Memory.dedupeMapKey name key = Redis.dedupeStoreKey name key := rfl
  rw [Redis.cancelByDedupe, Memory.cancelByDedupe, hkey, hentry]
  cases ks.dedupes.get? (Redis.dedupeStoreKey name key) with
  | none => exact ⟨rfl, h.rest⟩
  | some entry =>
    have hjobId : entry.stored.jobId = entry.jobId := rfl
    rw [Option.map_some]
    dsimp only
    rw [hjobId]
    by_cases hempty : entry.jobId = ""
    · have hnone : ks.jobs.get? entry.jobId = none := by
        rw [Option.eq_none_iff_forall_not_mem]
        intro job hjob
        have hkeyed := (h.agrees.sound.consistent.sound _ job hjob).keyed
        exact (h.plain _ job hjob).named (hkeyed.trans hempty)
      rw [if_pos hempty, Memory.cancelJob, h.agrees.absent hnone]
      exact ⟨rfl, h.rest⟩
    · obtain ⟨hsettles, hnext⟩ := h.cancelable entry.jobId now
      obtain ⟨hanswer, hleaves, -⟩ := hsettles.stopped "cancel failed"
      rw [if_neg hempty]
      rw [← hleaves] at hnext
      have herrors : ∀ e, (Memory.cancelJob s now entry.jobId).1 = .error e → e = .jobNotFound entry.jobId ∨
          ∃ state, e = .jobNotCancellable entry.jobId state := fun _ => cancelJob_errors
      generalize Redis.stopped "cancel failed" (Redis.cancel ks entry.jobId now) = r at *
      generalize Memory.cancelJob s now entry.jobId = r' at *
      obtain ⟨answer, ks'⟩ := r
      obtain ⟨answer', s'⟩ := r'
      obtain rfl : answer = answer' := hanswer
      cases answer with
      | ok => exact ⟨rfl, hnext⟩
      | error e =>
        rcases herrors e rfl with rfl | ⟨state, rfl⟩
        · exact ⟨rfl, hnext⟩
        · exact ⟨rfl, hnext⟩

theorem enqueueJob_user {id : JobId} {request : EnqueueRequest V} {now : Millis} {result : EnqueueResult}
    (hid : request.id = some id)
    (hreply : (Redis.enqueue indexes ks .user id request now).1 = .enqueued result.id result.duplicate) :
    Redis.Driver.enqueueJob ⟨indexes, none⟩ now request ⟨ks, 0⟩ =
      (.ok result, ⟨(Redis.enqueue indexes ks .user id request now).2, 0⟩) := by
  have hcandidate : (⟨indexes, none⟩ : Redis.Driver V).candidate 0 request = (.user, id, 0) := by
    unfold Redis.Driver.candidate
    rw [hid]
  unfold Redis.Driver.enqueueJob Redis.Driver.enqueueTries
  simp only [hcandidate]
  generalize Redis.enqueue indexes ks .user id request now = answer at hreply ⊢
  obtain ⟨reply, ks'⟩ := answer
  obtain rfl : reply = .enqueued result.id result.duplicate := hreply
  rfl

end Serve

/-- The Redis driver follows the in-memory driver, call by call. -/
theorem redis_follows {tonumber : String → Option ℤ} (hnumber : ∀ n : ℤ, tonumber (Int.repr n) = some n) :
    Follows Memory.serve (Redis.serve tonumber indexes) LifecycleReply.sent
      (LifecycleCall.Admits indexes) (Alongside (V := V) indexes) := by
  rintro n s ks ⟨now, call⟩ h hadmits
  have hreadable : ∀ id job, ks.jobs.get? id = some job → Redis.Readable job.keep :=
    fun id job hjob => (h.plain id job hjob).readable
  cases call with
  | enqueue request =>
    obtain ⟨⟨id, hid, hne⟩, hkey, hread⟩ := hadmits
    obtain ⟨result, hreply, hresult, hboard⟩ := h.agrees.enqueue hid hkey now .counter
    have hnext : Alongside indexes n (Memory.exec s now (.enqueue request .counter))
        (ks.run indexes now (.enqueue .user id request)) := by
      refine h.next now (.enqueue .user id request) (.enqueue request .counter) trivial (fun l hl => ?_)
        (Memory.enqueueOne_draws s now request .counter) hboard
      cases hl with
      | enqueue id' key hmode => exact ⟨hmode (by decide) ▸ hne, hread⟩
      | replace => exact hread
      | quiet | prune => trivial
    rw [Redis.serve, Memory.serve, enqueueJob_user hid hreply]
    exact ⟨congrArg LifecycleReply.enqueued hresult.symm, hnext⟩
  | claim options =>
    obtain ⟨hanswer, hboard⟩ := h.agrees.claim hadmits
    exact ⟨hanswer, h.placeless now (.claim (Redis.claimOptions options)) (.claim options) trivial
      (fun l hl => by cases hl <;> trivial) trivial hboard⟩
  | ack id token outcome =>
    obtain ⟨hanswer, hleaves, hboard⟩ :=
      (h.agrees.ack (hreadable id) token outcome now).stopped "ack failed"
    have hnext := h.next now (.ack id token outcome) (.ack id token outcome.toOutcome) trivial
      (fun l hl => by cases hl <;> trivial) (Memory.ack_draws s now id token outcome) hboard
    exact ⟨congrArg LifecycleReply.settled hanswer, hleaves ▸ hnext⟩
  | release id token =>
    obtain ⟨hanswer, hleaves, hboard⟩ :=
      (h.agrees.release (hreadable id) token now).stopped "release failed"
    have hnext := h.placeless now (.release id token) (.release id token) trivial
      (fun l hl => by cases hl <;> trivial) trivial hboard
    exact ⟨congrArg LifecycleReply.settled hanswer, hleaves ▸ hnext⟩
  | extendLocks locks durationMs =>
    obtain ⟨hlost, hcancel, hboard⟩ := h.agrees.extendLocks locks durationMs now ⟨[], []⟩ ⟨[], []⟩ rfl rfl
    exact ⟨congrArg₂ LifecycleReply.locks hlost hcancel, h.placeless now (.extendLocks _ durationMs)
      (.extendLocks locks durationMs) trivial (fun l hl => by cases hl <;> trivial) trivial hboard⟩
  | cancel id =>
    obtain ⟨hsettles, hnext⟩ := h.cancelable id now
    obtain ⟨hanswer, hleaves, -⟩ := hsettles.stopped "cancel failed"
    exact ⟨congrArg LifecycleReply.settled hanswer, hleaves ▸ hnext⟩
  | cancelByDedupe name key =>
    obtain ⟨hanswer, hnext⟩ := h.cancelByDedupe name key now
    exact ⟨congrArg LifecycleReply.found hanswer, hnext⟩
  | retry id =>
    obtain ⟨hanswer, hboard⟩ := h.agrees.retry id now
    exact ⟨congrArg LifecycleReply.settled hanswer, h.next now (.retry id) (.retry id) trivial
      (fun l hl => by cases hl <;> trivial) (Memory.retry_draws s now id) hboard⟩
  | promote id =>
    obtain ⟨hanswer, hboard⟩ := h.agrees.promote id now
    exact ⟨congrArg LifecycleReply.settled hanswer, h.placeless now (.promote id) (.promote id) trivial
      (fun l hl => by cases hl <;> trivial) trivial hboard⟩
  | remove id =>
    obtain ⟨hanswer, hboard⟩ := h.agrees.remove id
    exact ⟨congrArg (fun b => LifecycleReply.found (.ok b)) hanswer, h.placeless now (.remove id) (.remove id)
      trivial (fun l hl => by cases hl <;> trivial) trivial hboard⟩
  | pause queue =>
    exact ⟨rfl, h.placeless now (.pause queue) (.pause queue) trivial (fun l hl => by cases hl <;> trivial)
      trivial (h.agrees.pause queue)⟩
  | resume queue =>
    exact ⟨rfl, h.placeless now (.resume queue) (.resume queue) trivial (fun l hl => by cases hl <;> trivial)
      trivial (h.agrees.resume queue)⟩
  | getJob id => exact ⟨congrArg LifecycleReply.record (h.agrees.getJob id), h.rest⟩
  | getAttempts id => exact ⟨congrArg LifecycleReply.ledger (h.agrees.getAttempts id), h.rest⟩
  | counts queue state => exact ⟨congrArg LifecycleReply.count (h.agrees.counts queue state), h.rest⟩
  | list options =>
    obtain ⟨⟨routed, hroute⟩, ⟨place, hcursor, hplace⟩, hbasic⟩ := hadmits
    obtain ⟨page, hpage, hreply⟩ := h.agrees.list hbasic hnumber hroute hcursor hplace
    rw [Redis.serve, hpage]
    exact ⟨congrArg (fun result => LifecycleReply.page (some result)) hreply, h.rest⟩

theorem alongside_empty {n : ℕ} (hn : n < 10 ^ 16) :
    Alongside (V := V) indexes n Memory.Store.empty Redis.Keyspace.empty := by
  have hboard : (Redis.Keyspace.empty : Redis.Keyspace V).board = Memory.Store.empty.board := rfl
  refine ⟨⟨hboard, Redis.sound_empty, fun _ => rfl, ?_, ?_, ?_⟩, ?_, ?_⟩
  · exact fun _ _ _ _ hjob => by cases hjob
  · exact fun _ _ hjob => by cases hjob
  · exact ⟨fun _ _ hjob => (by cases hjob), fun _ _ _ _ hjob => (by cases hjob)⟩
  · exact fun _ _ hjob => by cases hjob
  · exact (Nat.zero_add n).symm ▸ hn

/-- A claim that comes too early, one that is served, and the job at the end. -/
def mailCalls : List (Millis × LifecycleCall ℕ) :=
  [(0, .enqueue { EnqueueRequest.plain "a" "mail" "default" 7 with delayMs := 5 }),
    (1, .claim ⟨"default", ["mail"], "t1", 1000⟩), (5, .claim ⟨"default", ["mail"], "t1", 1000⟩),
    (6, .ack "a" "t1" (.complete (some 3))), (7, .getJob "a"),
    (8, .list { name := some "mail", cursor := some "3:a" })]

end EffectMq
