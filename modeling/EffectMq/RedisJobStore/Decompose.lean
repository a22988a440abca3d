import EffectMq.RedisJobStore.Moves

/-! # Redis scripts as chains of elementary steps

Every writing script of the Redis driver is a chain of the elementary steps of `Lifecycle.lean`, and
`Allows` names the steps each script may take.
-/

namespace EffectMq.Redis
set_option autoImplicit false
set_option maxHeartbeats 250000

open Indexes Transition

variable {V : Type} {indexes : IndexConfig}

/-! ## The steps a script may take -/

/-- The terminal transition an ack may make; a retry ends a job whose cancel is pending. -/
inductive AckEnds : Settled V → Ending V → Prop
  | complete (exit : Option V) : AckEnds (.complete exit) (.complete exit)
  | fail (exit : Option V) : AckEnds (.fail exit) (.fail exit)
  | cancelled : AckEnds .cancelled .ackCancelled
  | retry (delayMs : ℤ) (exit : Option V) : AckEnds (.retry delayMs exit) .ackCancelled

/-- The scripts that delete terminal hashes on their way. -/
def Script.Prunes : Script V → Prop
  | .ack _ _ _ | .fanOut _ _ _ | .release _ _ | .recoverStalled _ | .cancel _ | .recordChildResults _
  | .sweepState _ _ _ _ => True
  | _ => False

inductive Allows (now : ℤ) : Script V → Label V → Prop
  | quiet (script : Script V) : Allows now script .quiet
  | prune {script : Script V} (h : script.Prunes) (id : JobId) : Allows now script (.prune id)
  | enqueue {mode : IdMode} {id : JobId} {request : EnqueueRequest V} (id' : JobId)
      (dedupeKey : String) (h : mode ≠ .auto → id' = id) :
      Allows now (.enqueue mode id request) (.insert id' request dedupeKey now)
  | replace (mode : IdMode) (id : JobId) (request : EnqueueRequest V) (id' : JobId) :
      Allows now (.enqueue mode id request) (.change id' (.replace request now))
  | enqueueMany {items : List (BatchItem V)} {item : BatchItem V} (h : item ∈ items) (id : JobId) :
      Allows now (.enqueueMany items) (.insert id item.request "" now)
  | tick (key : ScheduleKey) (expectedRunAt nextRunAt : ℤ) (id : JobId) (request : EnqueueRequest V) :
      Allows now (.tickSchedule key expectedRunAt nextRunAt id request) (.insert id request "" now)
  | promoteDue (options : ClaimOptions) (id : JobId) :
      Allows now (.claim options) (.change id .promoteDue)
  | claim (options : ClaimOptions) (id : JobId) :
      Allows now (.claim options) (.change id (.claim options now))
  | ackFinish {id : JobId} {token : String} {outcome : Settled V} {e : Ending V}
      (h : AckEnds outcome e) : Allows now (.ack id token outcome) (.change id (.finish e now))
  | ackRequeue (id : JobId) (token : String) (delayMs : ℤ) (exit : Option V) (seq : ℕ) :
      Allows now (.ack id token (.retry delayMs exit)) (.change id (.requeue delayMs exit now seq))
  | park (id : JobId) (token : String) (chunk : FanOutChunk V) (flow : FlowState) :
      Allows now (.fanOut id token chunk) (.change id (.park flow now))
  | land (id : JobId) (token : String) (chunk : FanOutChunk V) (flow : FlowState) (seq : ℕ) :
      Allows now (.fanOut id token chunk) (.change id (.land flow now seq))
  | cancelFanOut (id : JobId) (token : String) (chunk : FanOutChunk V) (flow : FlowState) :
      Allows now (.fanOut id token chunk) (.change id (.cancelFanOut flow now))
  | release (id : JobId) (token : String) : Allows now (.release id token) (.change id .release)
  | releaseCancel (id : JobId) (token : String) :
      Allows now (.release id token) (.change id (.finish .cancelActive now))
  | extend {locks : List Lock} {lock : Lock} (h : lock ∈ locks) (durationMs : ℤ) :
      Allows now (.extendLocks locks durationMs) (.change lock.id (.extend (now + durationMs)))
  | stall (maxStalledCount : ℤ) (id : JobId) :
      Allows now (.recoverStalled maxStalledCount) (.change id (.stall now))
  | stallFail (maxStalledCount : ℤ) (id : JobId) :
      Allows now (.recoverStalled maxStalledCount) (.change id (.finish .stalled now))
  | stallCancel (maxStalledCount : ℤ) (id : JobId) :
      Allows now (.recoverStalled maxStalledCount) (.change id (.finish .cancelActive now))
  | remove (id : JobId) : Allows now (.remove id) (.remove id)
  | retry (id : JobId) (seq : ℕ) : Allows now (.retry id) (.change id (.retry now seq))
  | requestCancel (id : JobId) : Allows now (.cancel id) (.change id .requestCancel)
  | cancelIdle (id : JobId) : Allows now (.cancel id) (.change id (.finish .cancelIdle now))
  | cancelSettle (id : JobId) (marked : ℕ) : Allows now (.cancel id) (.change id (.settle marked))
  | promote (id : JobId) : Allows now (.promote id) (.change id (.promote now))
  | count {reports : List (ReportItem V)} {report : ReportItem V} (h : report ∈ reports) :
      Allows now (.recordChildResults reports) (.change report.flowId (.count report.outcome))
  | settle (reports : List (ReportItem V)) (id : JobId) (marked : ℕ) :
      Allows now (.recordChildResults reports) (.change id (.settle marked))
  | failFast (reports : List (ReportItem V)) (id : JobId) (childKey : String) :
      Allows now (.recordChildResults reports) (.change id (.finish (.failFast childKey) now))
  | resumeParent (reports : List (ReportItem V)) (id : JobId) (seq : ℕ) :
      Allows now (.recordChildResults reports) (.change id (.resume now seq))

/-! ## Scripts on a held job -/

section Scripts

variable {P : Label V → Prop} {ks : Keyspace V} {jobId : JobId} {job : JobHash V} {now : ℤ}

theorem Does.change {ks' : Keyspace V} {c : Change V} (hjob : ks.jobs.get? jobId = some job)
    (hm : Moves indexes ks ks' jobId job c) (hc : c.Enabled job) (hP : P (.change jobId c)) :
    Does indexes P ks ks' :=
  .single (.change c hjob hc hm) hP

/-- A script changes one job, which no longer runs then, and trims what is beyond the policies. -/
def Moved {β : Type} (indexes : IndexConfig) (P : Label V → Prop) (ks : Keyspace V) (jobId : JobId)
    (left : β → Keyspace V) (r : Except (Keyspace V) β) : Prop :=
  ∃ c ks₁, Step indexes ks (.change jobId c) ks₁ ∧ P (.change jobId c) ∧
    (∀ job₁, ks₁.jobs.get? jobId = some job₁ → job₁.state ≠ .active) ∧
    Ends (Does indexes Label.Trims ks₁) left r

theorem Moved.of_change {β : Type} {left : β → Keyspace V} {r : Except (Keyspace V) β}
    {ks₁ : Keyspace V} {c : Change V} (hjob : ks.jobs.get? jobId = some job)
    (hm : Moves indexes ks ks₁ jobId job c) (hc : c.Enabled job) (hP : P (.change jobId c))
    (hstate : (c.apply job).state ≠ .active) (hends : Ends (Does indexes Label.Trims ks₁) left r) :
    Moved indexes P ks jobId left r := by
  refine ⟨c, ks₁, .change c hjob hc hm, hP, fun job₁ hjob₁ => ?_, hends⟩
  rw [hm.jobs, if_pos rfl] at hjob₁
  rw [← Option.some.inj hjob₁]
  exact hstate

theorem Moved.answer {α : Type} {r : Except (Keyspace V) (Keyspace V)}
    (h : Moved indexes P ks jobId id r) (a : α) :
    Moved indexes P ks jobId Prod.snd (r.map fun ks => (a, ks)) := by
  obtain ⟨c, ks₁, hs, hP, hstate, hends⟩ := h
  exact ⟨c, ks₁, hs, hP, hstate, hends.answer a⟩

theorem Moved.does {β : Type} {left : β → Keyspace V} {r : Except (Keyspace V) β}
    (h : Moved indexes P ks jobId left r) (hquiet : P .quiet) (hprune : ∀ id, P (.prune id)) :
    Ends (Does indexes P ks) left r := by
  obtain ⟨c, ks₁, hs, hP, -, hends⟩ := h
  refine .after (.single hs hP) ?_
  cases r with
  | ok b => exact hends.of_trims hquiet hprune
  | error ks' => exact hends.of_trims hquiet hprune

/-- The job no longer runs. -/
theorem Moved.over {β : Type} {left : β → Keyspace V} {r : Except (Keyspace V) β}
    (h : Moved indexes P ks jobId left r) :
    Ends (fun ks' => ∀ job', ks'.jobs.get? jobId = some job' → job'.state ≠ .active) left r := by
  obtain ⟨c, ks₁, -, -, hstate, hends⟩ := h
  have hkept : ∀ ks', Does indexes Label.Trims ks₁ ks' →
      ∀ job', ks'.jobs.get? jobId = some job' → job'.state ≠ .active := by
    intro ks' hdoes
    refine hdoes.preserves
      (I := fun ks' => ∀ job', ks'.jobs.get? jobId = some job' → job'.state ≠ .active) ?_ hstate
    intro ks l ks' hl hs hI job' hjob'
    cases hs with
    | quiet hq _ =>
      rw [hq.jobs] at hjob'
      exact hI job' hjob'
    | prune hgone hterminal hnone hw ha =>
      rename_i id job
      by_cases hid : jobId = id
      · subst hid
        rw [hnone] at hjob'
        cases hjob'
      · rw [hw.others jobId hid] at hjob'
        exact hI job' hjob'
    | _ => exact hl.elim
  cases r with
  | ok b => exact hkept _ hends
  | error ks' => exact hkept _ hends

/-- A transition into a terminal state that ends with its report, its dedup key and retention. -/
def Concludes (indexes : IndexConfig) (ks : Keyspace V) (jobId : JobId) (job : JobHash V) (e : Ending V)
    (now : ℤ) (r : Except (Keyspace V) (Keyspace V)) : Prop :=
  ∃ ks₁, Moves indexes ks ks₁ jobId job (.finish e now) ∧ ks₁.beside = ks.beside ∧ ks₁.seq = ks.seq ∧
    r = wrapUp ks₁ jobId job.name e.outcome now

theorem Concludes.moved {e : Ending V} {r : Except (Keyspace V) (Keyspace V)}
    (hr : Concludes indexes ks jobId job e now r) (h : Consistent indexes ks)
    (hjob : ks.jobs.get? jobId = some job) (hP : P (.change jobId (.finish e now)))
    (he : e.Enabled job) : Moved indexes P ks jobId id r := by
  obtain ⟨ks₁, hm, -, -, rfl⟩ := hr
  have hstate : ((Change.finish e now).apply job).state ≠ .active := by
    cases e <;> exact fun hs => by cases hs
  exact .of_change hjob hm he hP hstate (wrapUp_trims _ _ _ _ (h.write (hm.writes h hjob)))

theorem finish_concludes (e : Ending V) (h : Consistent indexes ks)
    (hjob : ks.jobs.get? jobId = some job) (hactive : job.state = .active)
    (storeExit : Option (Option V)) (outcome : AttemptOutcome) (ledgerExit : Option V)
    (hhash : endHash job now e = { unlocked job with
      attemptsMade := job.attemptsMade + 1, state := e.outcome.toJobState, finishedAt := some now,
      cancelRequested := false, exit := storeExit.getD job.exit })
    (hout : (Change.finish e now).outcomes = [(outcome, now, ledgerExit)]) :
    Concludes indexes ks jobId job e now
      (finish (remActive (hset ks jobId fun job => { job with attemptsMade := job.attemptsMade + 1 }) jobId)
        jobId job e.outcome storeExit outcome ledgerExit now) := by
  have htaken := (((taken_active hjob h hactive).hset fun job =>
    { job with attemptsMade := job.attemptsMade + 1 }).hset fun job =>
      { job with
        state := e.outcome.toJobState, finishedAt := some now, cancelRequested := false, lockToken := "",
        lockExpiresAt := none, exit := storeExit.getD job.exit }).append outcome job.processedAt now
          ledgerExit
  have hm := htaken.finish (.finish e now) hhash (by rw [Change.ledger, hout]; rfl) e.outcome rfl rfl
    (.inl rfl)
  rw [hactive] at hm
  exact ⟨_, hm, rfl, rfl, rfl⟩

theorem finishCancelled_concludes (h : Consistent indexes ks) (hjob : ks.jobs.get? jobId = some job)
    (hactive : job.state = .active) :
    Concludes indexes ks jobId job .cancelActive now
      (finishCancelled (remActive ks jobId) jobId job.queue job.name job.processedAt now) := by
  have htaken := ((taken_active hjob h hactive).hset fun job =>
    { job with
      state := .cancelled, finishedAt := some now, cancelRequested := false, lockToken := "",
      lockExpiresAt := none }).append .cancelled job.processedAt now none
  have hm := htaken.finish (.finish .cancelActive now) rfl rfl .cancelled rfl rfl (.inl rfl)
  rw [hactive] at hm
  exact ⟨_, hm, rfl, rfl, rfl⟩

theorem requeue_moves (now : ℤ) (h : Consistent indexes ks) (hjob : ks.jobs.get? jobId = some job)
    (hactive : job.state = .active) (delayMs : ℤ) (exit : Option V) :
    Moves indexes ks
      (requeue (remActive (hset ks jobId fun job => { job with attemptsMade := job.attemptsMade + 1 }) jobId)
        jobId job delayMs exit now) jobId job (.requeue delayMs exit now (ks.seq + 1)) := by
  have htaken := (((taken_active hjob h hactive).hset fun job =>
    { job with attemptsMade := job.attemptsMade + 1 }).append .retried job.processedAt now exit).bump
  have hnew : ks.seq < ks.seq + 1 ∧ ks.seq + 1 ≤ ks.seq + 1 := ⟨Nat.lt_succ_self _, le_rfl⟩
  unfold requeue
  dsimp only
  by_cases hdelay : 0 < max 0 delayMs
  · simp only [hdelay, if_true, reduceCtorEq, if_false]
    have hm := (htaken.hset fun job =>
      { job with
        state := .delayed, seq := ks.seq + 1, runAt := now + max 0 delayMs, lockToken := "",
        lockExpiresAt := none }).delay (.requeue delayMs exit now (ks.seq + 1))
          (by simp only [Change.apply, hdelay, if_true]; rfl) rfl rfl (.inr hnew)
    rw [hactive] at hm
    exact hm
  · simp only [hdelay, if_true, if_false]
    have hm := (htaken.hset fun job =>
      { job with
        state := .waiting, seq := ks.seq + 1, runAt := now + max 0 delayMs, lockToken := "",
        lockExpiresAt := none }).wait (.requeue delayMs exit now (ks.seq + 1))
          (by simp only [Change.apply, hdelay, if_false]; rfl) rfl rfl (.inr hnew)
    rw [hactive] at hm
    exact hm

theorem requeue_moved (h : Consistent indexes ks) (hjob : ks.jobs.get? jobId = some job)
    (hactive : job.state = .active) (hcancel : job.cancelRequested = false) (delayMs : ℤ)
    (exit : Option V) (hP : ∀ seq, P (.change jobId (.requeue delayMs exit now seq))) :
    Moved indexes P ks jobId id (.ok
      (requeue (remActive (hset ks jobId fun job => { job with attemptsMade := job.attemptsMade + 1 }) jobId)
        jobId job delayMs exit now)) := by
  refine .of_change hjob (requeue_moves now h hjob hactive delayMs exit) ⟨hactive, hcancel⟩ (hP _) ?_
    (.refl _ _)
  simp only [Change.apply]
  split <;> decide

theorem release_moves (h : Consistent indexes ks) (hjob : ks.jobs.get? jobId = some job)
    (hactive : job.state = .active) :
    Moves indexes ks
      (countsMove (addWaiting (hset (remActive ks jobId) jobId fun job =>
        { job with state := .waiting, lockToken := "", lockExpiresAt := none }) job.queue job.priority
          job.seq jobId) job.queue .active .waiting) jobId job .release := by
  have hm := ((taken_active hjob h hactive).hset fun job =>
    { job with state := .waiting, lockToken := "", lockExpiresAt := none }).wait .release rfl rfl rfl
      (.inl rfl)
  rw [hactive] at hm
  exact hm

/-- A job holds the lock a call presents. -/
def Holds (ks : Keyspace V) (jobId : JobId) (token : String) : Prop :=
  ∃ job, ks.jobs.get? jobId = some job ∧ job.state = .active ∧ job.lockToken = token

/-- A call that presents a lock: refused without a change, or its job moves on. -/
def Fenced (indexes : IndexConfig) (P : Label V → Prop) (ks : Keyspace V) (jobId : JobId) (token : String)
    (r : Except (Keyspace V) (Except StoreError Unit × Keyspace V)) : Prop :=
  (∃ e, r = .ok (.error e, ks)) ∨
    Holds ks jobId token ∧ (∀ e ks', r ≠ .ok (.error e, ks')) ∧ Moved indexes P ks jobId Prod.snd r

theorem Fenced.does {token : String} {r : Except (Keyspace V) (Except StoreError Unit × Keyspace V)}
    (h : Fenced indexes P ks jobId token r) (hquiet : P .quiet) (hprune : ∀ id, P (.prune id)) :
    Does indexes P ks (leaves r) := by
  rcases h with ⟨e, rfl⟩ | ⟨-, -, hmoved⟩
  · exact .refl P ks
  · exact (hmoved.does hquiet hprune).leaves

/-- The lock was held. -/
theorem Fenced.of_moved {token : String} {r : Except (Keyspace V) (Keyspace V)}
    (hjob : ks.jobs.get? jobId = some job) (hheld : ¬(job.state ≠ .active ∨ job.lockToken ≠ token))
    (h : Moved indexes P ks jobId id r) :
    Fenced indexes P ks jobId token (r.map fun ks => (.ok (), ks)) := by
  simp only [not_or, not_not] at hheld
  refine .inr ⟨⟨job, hjob, hheld⟩, ?_, h.answer _⟩
  intro e ks' hr
  cases r <;> cases hr

theorem ack_fenced (now : ℤ) (h : Consistent indexes ks) (token : String) (outcome : Settled V) :
    Fenced indexes (Allows now (.ack jobId token outcome)) ks jobId token
      (ack ks jobId token outcome now) := by
  unfold ack
  split
  · exact .inl ⟨_, rfl⟩
  · rename_i job hjob
    split
    · exact .inl ⟨_, rfl⟩
    · rename_i hheld
      refine .of_moved hjob hheld ?_
      simp only [not_or, not_not] at hheld
      obtain ⟨hactive, -⟩ := hheld
      split
      · exact (finish_concludes (.complete _) h hjob hactive _ _ _ rfl rfl).moved h hjob
          (.ackFinish (.complete _)) hactive
      · exact (finish_concludes (.fail _) h hjob hactive _ _ _ rfl rfl).moved h hjob
          (.ackFinish (.fail _)) hactive
      · exact (finish_concludes .ackCancelled h hjob hactive none _ _ rfl rfl).moved h hjob
          (.ackFinish .cancelled) hactive
      · split
        · exact (finish_concludes .ackCancelled h hjob hactive none _ _ rfl rfl).moved h hjob
            (.ackFinish (.retry ..)) hactive
        · rename_i hcancel
          exact requeue_moved h hjob hactive (Bool.eq_false_iff.mpr hcancel) _ _ fun seq => .ackRequeue ..

theorem release_fenced (now : ℤ) (h : Consistent indexes ks) (token : String) :
    Fenced indexes (Allows now (.release jobId token)) ks jobId token (release ks jobId token now) := by
  unfold release
  split
  · exact .inl ⟨_, rfl⟩
  · rename_i job hjob
    split
    · exact .inl ⟨_, rfl⟩
    · rename_i hheld
      have hactive : job.state = .active := by
        rw [not_or, not_not] at hheld
        exact hheld.1
      dsimp only
      split
      · exact .of_moved hjob hheld ((finishCancelled_concludes h hjob hactive).moved h hjob
          (.releaseCancel jobId token) hactive)
      · rename_i hcancel
        exact .of_moved (r := .ok _) hjob hheld (.of_change hjob (release_moves h hjob hactive)
          ⟨hactive, Bool.eq_false_iff.mpr hcancel⟩ (.release jobId token) (fun hs => by cases hs)
          (.refl _ _))

theorem extendLock_does (now : ℤ) (h : Consistent indexes ks) {locks : List Lock} (durationMs : ℤ)
    (reply : ExtendReply) {lock : Lock} (hlock : lock ∈ locks) :
    Does indexes (Allows now (.extendLocks locks durationMs)) ks
      (extendLock now durationMs (reply, ks) lock).2 := by
  unfold extendLock
  dsimp only
  split
  · exact .refl _ ks
  · rename_i job hjob
    split
    · exact .refl _ ks
    · rename_i hheld
      simp only [not_or, not_not] at hheld
      obtain ⟨hactive, -⟩ := hheld
      split
      · exact .refl _ ks
      · rename_i hcancel
        exact .change hjob (moves_extend h hjob hactive _) ⟨hactive, Bool.eq_false_iff.mpr hcancel⟩
          (.extend hlock durationMs)

theorem recoverJob_does (h : Consistent indexes ks) (maxStalledCount : ℤ) (recovered : List Recovered) :
    Ends (Does indexes (Allows now (.recoverStalled maxStalledCount)) ks) Prod.snd
      (recoverJob now maxStalledCount (recovered, ks) jobId) := by
  unfold recoverJob
  dsimp only
  split
  · exact .refl _ ks
  · rename_i job hjob
    split
    · exact .refl _ ks
    · rename_i hactive
      rw [not_not] at hactive
      split
      · apply Ends.answer
        exact ((finishCancelled_concludes h hjob hactive).moved h hjob (.stallCancel _ jobId) hactive).does
          (.quiet _) (.prune trivial)
      · rename_i hcancel
        have hunflagged := Bool.eq_false_iff.mpr hcancel
        have htaken := ((taken_active hjob h hactive).hset fun hash =>
          { hash with
            stalledCount := job.stalledCount + 1, lockToken := "", lockExpiresAt := none }).append
              .stalled job.processedAt now none
        split
        · -- too often: the job fails, without retention
          have hm := (htaken.hset fun job =>
            { job with state := .failed, finishedAt := some now, failedReason := stalledReason }).finish
              (.finish .stalled now) rfl rfl .failed rfl rfl (.inl rfl)
          rw [hactive] at hm
          refine Does.trans (.change hjob hm ⟨hactive, hunflagged⟩ (.stallFail _ jobId))
            (.of_body (.quiet _) ?_)
          rw [body_releaseDedupe, body_appendOutbox]
          rfl
        · have hm := (htaken.hset fun job => { job with state := .waiting }).wait (.stall now) rfl rfl rfl
            (.inl rfl)
          rw [hactive] at hm
          exact .change hjob hm ⟨hactive, hunflagged⟩ (.stall _ jobId)

/-! ### Flows -/

theorem body_settleMarkRows (ks : Keyspace V) (flowId : JobId) :
    ∃ marked, (settleMarkRows ks flowId).body = (hset ks flowId fun job =>
      { job with
        flow := job.flow.map fun flow =>
          { flow with pending := 0, cancelled := flow.cancelled + marked } }).body := by
  have hmarked := body_markPendingRowsCancelled ks flowId
  refine ⟨(markPendingRowsCancelled ks flowId).2, ?_⟩
  simp only [Keyspace.body, Prod.mk.injEq] at hmarked ⊢
  obtain ⟨hjobs, hattempts, hindex, hcounts, hseq⟩ := hmarked
  refine ⟨?_, hattempts, hindex, hcounts, hseq⟩
  unfold settleMarkRows hset
  dsimp only
  rw [hjobs]

/-- The rows of a parent are over, and its tally. -/
theorem settleMarkRows_does (hquiet : P .quiet) (h : Consistent indexes ks)
    (hjob : ks.jobs.get? jobId = some job) (hP : ∀ marked, P (.change jobId (.settle marked))) :
    Does indexes P ks (settleMarkRows ks jobId) ∧
      ∃ marked, (settleMarkRows ks jobId).jobs.get? jobId = some ((Change.settle marked).apply job) := by
  obtain ⟨marked, hbody⟩ := body_settleMarkRows ks jobId
  have hm := moves_hset h hjob (.settle marked) (fun job =>
    { job with
      flow := job.flow.map fun flow =>
        { flow with pending := 0, cancelled := flow.cancelled + marked } }) rfl rfl rfl rfl
    fun key => by cases key <;> rfl
  refine ⟨Does.trans (.change hjob hm trivial (hP marked)) (.of_body hquiet hbody), marked, ?_⟩
  have hjobs := congrArg Prod.fst hbody
  change (settleMarkRows ks jobId).jobs = _ at hjobs
  rw [hjobs]
  refine (get?_hset hjob _ jobId).trans ?_
  rw [if_pos rfl]
  rfl

theorem landManifest_moved {token : String} {chunk : FanOutChunk V} (h : Consistent indexes ks)
    (hjob : ks.jobs.get? jobId = some job) (hactive : job.state = .active) :
    Moved indexes (Allows now (.fanOut jobId token chunk)) ks jobId id
      (landManifest ks jobId job chunk now) := by
  unfold landManifest
  dsimp only
  have htaken := ((taken_active hjob h hactive).append .fannedOut job.processedAt now none).hset
    fun hash => { hash with flow := some (job.flow.getD
      { failFast := chunk.failFast, pending := chunk.total, completed := 0, failed := 0,
        cancelled := 0 }) }
  split
  · obtain ⟨marked, hbody⟩ := body_settleMarkRows (hset (remActive (appendAttempt ks jobId .fannedOut
      job.processedAt now none) jobId) jobId fun hash => { hash with flow := some (job.flow.getD
        { failFast := chunk.failFast, pending := chunk.total, completed := 0, failed := 0,
          cancelled := 0 }) }) jobId
    have hsettled := (((htaken.hset fun job =>
      { job with
        flow := job.flow.map fun flow =>
          { flow with pending := 0, cancelled := flow.cancelled + marked } }).of_body hbody).hset
      fun job =>
        { job with
          state := .cancelled, finishedAt := some now, cancelRequested := false, lockToken := "",
          lockExpiresAt := none }).append .cancelled job.processedAt now none
    have hm := hsettled.finish (.cancelFanOut _ now) rfl rfl .cancelled rfl rfl (.inl rfl)
    rw [hactive] at hm
    refine .of_change hjob hm hactive (.cancelFanOut ..) (fun hs => by cases hs)
      (wrapUp_trims _ _ _ _ ?_)
    exact h.write (hm.writes h hjob)
  · rename_i hcancel
    have hunflagged := Bool.eq_false_iff.mpr hcancel
    split
    · rename_i hpending
      have hm := (htaken.hset fun job =>
        { job with state := .waitingChildren, lockToken := "", lockExpiresAt := none }).park
          (.park _ now) rfl rfl rfl (.inl rfl)
      rw [hactive] at hm
      exact .of_change hjob hm ⟨hactive, hunflagged, hpending⟩ (.park ..) (fun hs => by cases hs)
        (.refl _ _)
    · rename_i hpending
      have hm := (htaken.bump.hset fun job =>
        { job with
          state := .waiting, runAt := now, seq := ks.seq + 1, lockToken := "",
          lockExpiresAt := none }).wait (.land _ now (ks.seq + 1)) rfl rfl rfl
            (.inr ⟨Nat.lt_succ_self _, le_rfl⟩)
      rw [hactive] at hm
      exact .of_change hjob hm ⟨hactive, hunflagged, Nat.eq_zero_of_not_pos hpending⟩ (.land ..)
        (fun hs => by cases hs) (.refl _ _)

/-- A chunk stages its rows under the lock; the last one moves the parent on. -/
theorem fanOut_staged (jobId : JobId) (now : ℤ) (h : Consistent indexes ks) (token : String) (chunk : FanOutChunk V) :
    (∃ e, fanOut ks jobId token chunk now = .ok (.error e, ks)) ∨
      Holds ks jobId token ∧ ∃ ks₁, ks₁.body = ks.body ∧
        (chunk.final = false ∧ fanOut ks jobId token chunk now = .ok (.ok (), ks₁) ∨
          chunk.final = true ∧ (∀ e ks', fanOut ks jobId token chunk now ≠ .ok (.error e, ks')) ∧
            Moved indexes (Allows now (.fanOut jobId token chunk)) ks₁ jobId Prod.snd
              (fanOut ks jobId token chunk now)) := by
  unfold fanOut
  split
  · exact .inl ⟨_, rfl⟩
  · rename_i job hjob
    split
    · exact .inl ⟨_, rfl⟩
    · rename_i hheld
      simp only [not_or, not_not] at hheld
      have hbody : (if job.flow = none then stageRows ks jobId chunk now else ks).body = ks.body := by
        split
        · exact body_stageRows ks jobId chunk now
        · rfl
      have hstaged : Does indexes Label.Trims ks
          (if job.flow = none then stageRows ks jobId chunk now else ks) := .of_body trivial hbody
      have hjobs := congrArg Prod.fst hbody
      refine .inr ⟨⟨job, hjob, hheld⟩, _, hbody, ?_⟩
      dsimp only
      cases hfinal : chunk.final with
      | false => exact .inl ⟨rfl, rfl⟩
      | true =>
        refine .inr ⟨rfl, fun e ks' hr => ?_, ?_⟩
        · rw [if_pos rfl] at hr
          cases hland : landManifest (if job.flow = none then stageRows ks jobId chunk now else ks) jobId
              job chunk now <;> rw [hland] at hr <;> cases hr
        · rw [if_pos rfl]
          apply Moved.answer
          exact landManifest_moved (hstaged.consistent h) ((congrArg (·.get? jobId) hjobs).trans hjob)
            hheld.1

theorem fanOut_does (h : Consistent indexes ks) (token : String) (chunk : FanOutChunk V) :
    Does indexes (Allows now (.fanOut jobId token chunk)) ks
      (leaves (fanOut ks jobId token chunk now)) := by
  rcases fanOut_staged jobId now h token chunk with
    ⟨e, hr⟩ | ⟨-, ks₁, hbody, ⟨-, hr⟩ | ⟨-, -, hmoved⟩⟩
  · rw [hr]
    exact .refl _ ks
  · rw [hr]
    exact .of_body (.quiet _) hbody
  · exact Does.trans (.of_body (.quiet _) hbody)
      (hmoved.does (.quiet _) (.prune trivial)).leaves

/-! ### Maintenance -/

theorem remove_does (h : Consistent indexes ks) :
    Does indexes (Allows now (.remove jobId)) ks (remove ks jobId).2 := by
  unfold remove
  split
  · exact .refl _ ks
  · rename_i job hjob
    split
    · exact .refl _ ks
    · rename_i hidle
      obtain ⟨hw, hnone, ha⟩ := deleteJob_writes h hjob
      exact .single (.remove hjob (not_or.mp hidle) hnone hw ha) (.remove jobId)

theorem retry_moves (now : ℤ) (h : Consistent indexes ks) (hjob : ks.jobs.get? jobId = some job)
    (hfailed : job.state = .failed) :
    (retry ks jobId now).1 = .ok () ∧
      Moves indexes ks (retry ks jobId now).2 jobId job (.retry now (ks.seq + 1)) ∧
      (retry ks jobId now).2.beside = ks.beside ∧ (retry ks jobId now).2.seq = ks.seq + 1 := by
  have hnew : ks.seq < ks.seq + 1 ∧ ks.seq + 1 ≤ ks.seq + 1 := ⟨Nat.lt_succ_self _, le_rfl⟩
  have hm := ((taken_terminal hjob h (by rw [hfailed]; rfl)).bump.hset fun job =>
    retryHash job now (ks.seq + 1)).wait (.retry now (ks.seq + 1)) rfl rfl rfl (.inr hnew)
  rw [hfailed] at hm
  rw [retry, hjob]
  dsimp only
  rw [if_neg (not_not.mpr hfailed)]
  exact ⟨rfl, hm, rfl, rfl⟩

theorem retry_does (h : Consistent indexes ks) :
    Does indexes (Allows now (.retry jobId)) ks (retry ks jobId now).2 := by
  cases hjob : ks.jobs.get? jobId with
  | none =>
    rw [retry, hjob]
    exact .refl _ ks
  | some job =>
    by_cases hfailed : job.state = .failed
    · exact .change hjob (retry_moves now h hjob hfailed).2.1 hfailed (.retry jobId _)
    · rw [retry, hjob]
      dsimp only
      rw [if_pos hfailed]
      exact .refl _ ks

theorem promote_moves (now : ℤ) (hjob : ks.jobs.get? jobId = some job) (hdelayed : job.state = .delayed) :
    (promote ks jobId now).1 = .ok () ∧
      Moves indexes ks (promote ks jobId now).2 jobId job (.promote now) ∧
      (promote ks jobId now).2.beside = ks.beside ∧ (promote ks jobId now).2.seq = ks.seq := by
  have htaken : Taken indexes ks (remDelayed ks job.queue jobId) jobId job job (ks.attempts jobId) :=
    taken_delayed hjob hdelayed
  have hm := (htaken.hset fun job => { job with state := .waiting, runAt := now }).wait (.promote now)
    rfl rfl rfl (.inl rfl)
  rw [hdelayed] at hm
  rw [promote, hjob]
  dsimp only
  rw [if_neg (not_not.mpr hdelayed)]
  exact ⟨rfl, hm, rfl, rfl⟩

theorem promote_does :
    Does indexes (Allows now (.promote jobId)) ks (promote ks jobId now).2 := by
  cases hjob : ks.jobs.get? jobId with
  | none =>
    rw [promote, hjob]
    exact .refl _ ks
  | some job =>
    by_cases hdelayed : job.state = .delayed
    · exact .change hjob (promote_moves now hjob hdelayed).2.1 hdelayed (.promote jobId)
    · rw [promote, hjob]
      dsimp only
      rw [if_pos hdelayed]
      exact .refl _ ks

theorem cancelIdle_concludes (now : ℤ) (h : Consistent indexes ks) (hjob : ks.jobs.get? jobId = some job)
    (hidle : job.state = .waiting ∨ job.state = .delayed ∨ job.state = .waitingChildren) :
    Concludes indexes ks jobId job .cancelIdle now
      (conclude (addTerminal (countsMove (hset (remDelayed (remWaiting ks job.queue jobId) job.queue jobId)
        jobId fun job => { job with
          state := .cancelled, finishedAt := some now, cancelRequested := false }) job.queue job.state
          .cancelled) job.name .cancelled now jobId) jobId job.name .cancelled .cancelled job.processedAt
        none now) := by
  have hm := (((taken_idle hjob h hidle).hset fun job =>
    { job with state := .cancelled, finishedAt := some now, cancelRequested := false }).append .cancelled
      job.processedAt now none).finish (.finish .cancelIdle now) rfl rfl .cancelled rfl rfl
        (.inl rfl)
  exact ⟨_, hm, rfl, rfl, rfl⟩

theorem cancelIdle_does (now : ℤ) (h : Consistent indexes ks) (hjob : ks.jobs.get? jobId = some job)
    (hidle : job.state = .waiting ∨ job.state = .delayed ∨ job.state = .waitingChildren) :
    Ends (Does indexes (Allows now (.cancel jobId)) ks) id
      (conclude (addTerminal (countsMove (hset (remDelayed (remWaiting ks job.queue jobId) job.queue jobId)
        jobId fun job => { job with
          state := .cancelled, finishedAt := some now, cancelRequested := false }) job.queue job.state
          .cancelled) job.name .cancelled now jobId) jobId job.name .cancelled .cancelled job.processedAt
        none now) :=
  ((cancelIdle_concludes now h hjob hidle).moved h hjob (.cancelIdle jobId) hidle).does (.quiet _)
    (.prune trivial)

theorem cancel_does (h : Consistent indexes ks) :
    Does indexes (Allows now (.cancel jobId)) ks (leaves (cancel ks jobId now)) := by
  apply Ends.leaves
  unfold cancel
  split
  · exact .refl _ ks
  · rename_i job hjob
    split
    · rename_i hactive
      have hm := moves_hset h hjob .requestCancel (fun job => { job with cancelRequested := true }) rfl rfl
        rfl rfl fun key => by cases key <;> rfl
      exact .change hjob hm hactive (.requestCancel jobId)
    · rename_i hwaiting
      apply Ends.answer
      rw [if_neg (by rw [hwaiting]; decide)]
      exact cancelIdle_does now h hjob (.inl hwaiting)
    · rename_i hdelayed
      apply Ends.answer
      rw [if_neg (by rw [hdelayed]; decide)]
      exact cancelIdle_does now h hjob (.inr (.inl hdelayed))
    · rename_i hparked
      apply Ends.answer
      rw [if_pos hparked]
      obtain ⟨hsettled, marked, hjob'⟩ := settleMarkRows_does (P := Allows now (.cancel jobId)) (.quiet _) h
        hjob fun marked => .cancelSettle jobId marked
      have hcancelled := cancelIdle_does now (hsettled.consistent h) hjob' (.inr (.inr hparked))
      exact .after hsettled hcancelled
    · exact .refl _ ks

/-! ### Enqueueing -/

/-- The id a request is stored under is free. -/
theorem resolveId_free {mode : IdMode} (hfree : ¬(mode ≠ .auto ∧ ks.jobs.has jobId = true))
    {id : JobId} {ks' : Keyspace V} (h : resolveId ks mode jobId = (some id, ks')) :
    ks'.jobs.get? id = none ∧ (mode ≠ .auto → id = jobId) := by
  cases mode with
  | auto =>
    have hresolved : autoId 5 ks = (some id, ks') := h
    have hnone := autoId_free 5 ks ((congrArg Prod.fst hresolved).trans rfl)
    rw [hresolved] at hnone
    exact ⟨hnone, fun hmode => absurd rfl hmode⟩
  | user | generated =>
    obtain ⟨hid, rfl⟩ := Prod.mk.inj h
    obtain rfl := Option.some.inj hid
    refine ⟨JsMap.has_eq_false.mp (Bool.eq_false_iff.mpr fun hhas => hfree ⟨by decide, hhas⟩), fun _ => rfl⟩

theorem insert_does (hquiet : P .quiet) {mode : IdMode}
    (hfree : ¬(mode ≠ .auto ∧ ks.jobs.has jobId = true)) {id : JobId} {ks' : Keyspace V}
    (hresolved : resolveId ks mode jobId = (some id, ks')) (request : EnqueueRequest V)
    (dedupeKey : String) (hP : P (.insert id request dedupeKey now)) :
    Does indexes P ks (insertJobRow indexes ks' id request dedupeKey now) := by
  obtain ⟨hq, ha⟩ := resolveId_quiet ks mode jobId
  rw [hresolved] at hq ha
  obtain ⟨hnone, -⟩ := resolveId_free hfree hresolved
  exact Does.trans (.quiet hquiet hq ha) (.single (insertJobRow_step request dedupeKey now hnone) hP)

theorem enqueue_does (mode : IdMode) (request : EnqueueRequest V) :
    Does indexes (Allows now (.enqueue mode jobId request)) ks
      (enqueue indexes ks mode jobId request now).2 := by
  have hwindow : ∀ (ks' : Keyspace V) key ttlMs,
      Does indexes (Allows now (.enqueue mode jobId request)) ks' (setWindow ks' key now ttlMs) :=
    fun ks' key ttlMs => .of_body (.quiet _) (body_setWindow ks' key now ttlMs)
  unfold enqueue
  split
  · exact .refl _ ks
  · rename_i hfree
    split
    · -- an entry holds the key
      rename_i answer hanswer
      obtain ⟨dedupe, -, hdecision⟩ := Option.bind_eq_some_iff.mp hanswer
      unfold dedupeDecision at hdecision
      dsimp only at hdecision
      split at hdecision
      · cases hdecision
      · rename_i entry _
        split at hdecision
        · rename_i job hkeyed
          obtain rfl := Option.some.inj hdecision
          obtain ⟨hjob, hreplace⟩ := Option.filter_eq_some_iff.mp hkeyed
          simp only [Bool.and_eq_true, decide_eq_true_eq] at hreplace
          refine Does.trans ?_ (hwindow _ _ _)
          exact .change hjob (moves_replace hjob hreplace.2 request now) hreplace.2 (.replace ..)
        · split at hdecision
          · obtain rfl := Option.some.inj hdecision
            dsimp only
            split
            · exact hwindow _ _ _
            · exact .refl _ ks
          · split at hdecision
            · obtain rfl := Option.some.inj hdecision
              exact .refl _ ks
            · cases hdecision
    · split
      · rename_i ks' hresolved
        obtain ⟨hq, ha⟩ := resolveId_quiet ks mode jobId
        rw [hresolved] at hq ha
        exact .quiet (.quiet _) hq ha
      · rename_i id ks' hresolved
        have hinserted : ∀ dedupeKey, Does indexes (Allows now (.enqueue mode jobId request)) ks
            (insertJobRow indexes ks' id request dedupeKey now) := fun dedupeKey =>
          insert_does (.quiet _) hfree hresolved request dedupeKey
            (.enqueue id dedupeKey (resolveId_free hfree hresolved).2)
        dsimp only
        split
        · exact hinserted _
        · exact (hinserted _).trans (.of_body (.quiet _) rfl)

theorem enqueueItem_does {items : List (BatchItem V)} {item : BatchItem V} (hitem : item ∈ items)
    (replies : List EnqueueReply) :
    Does indexes (Allows now (.enqueueMany items)) ks (enqueueItem indexes now (replies, ks) item).2 := by
  unfold enqueueItem
  dsimp only
  split
  · exact .refl _ ks
  · rename_i hfree
    obtain ⟨hq, ha⟩ := resolveId_quiet ks item.mode item.id
    split
    · rename_i ks' hresolved
      rw [hresolved] at hq ha
      exact .quiet (.quiet _) hq ha
    · rename_i id ks' hresolved
      rw [hresolved] at hq ha
      split
      · exact .quiet (.quiet _) hq ha
      · exact insert_does (.quiet _) hfree hresolved item.request "" (.enqueueMany hitem id)

theorem tickSchedule_does (key : ScheduleKey) (expectedRunAt nextRunAt : ℤ) (request : EnqueueRequest V) :
    Does indexes (Allows now (.tickSchedule key expectedRunAt nextRunAt jobId request)) ks
      (tickSchedule indexes ks key expectedRunAt nextRunAt jobId request now).2 := by
  have hadvanced := body_advanceSchedule ks key expectedRunAt nextRunAt
  unfold tickSchedule
  split
  · rename_i hresult
    rw [hresult] at hadvanced
    exact .of_body (.quiet _) hadvanced
  · rename_i ks' hresult
    rw [hresult] at hadvanced
    have hquiet : Does indexes (Allows now (.tickSchedule key expectedRunAt nextRunAt jobId request)) ks
        ks' := .of_body (.quiet _) hadvanced
    split
    · exact hquiet
    · rename_i hfree
      have hnone := JsMap.has_eq_false.mp (Bool.eq_false_iff.mpr hfree)
      exact hquiet.trans (.single (insertJobRow_step request "" now hnone) (.tick ..))

/-! ### Claiming -/

theorem promoteOne_does (now : ℤ) {options : ClaimOptions}
    (hjob : ks.jobs.get? jobId = some job) (hdelayed : job.state = .delayed)
    (hqueue : job.queue = options.queue) :
    Does indexes (Allows now (.claim options)) ks (promoteOne options.queue ks jobId) := by
  have htaken : Taken indexes ks (remDelayed ks job.queue jobId) jobId job job (ks.attempts jobId) :=
    taken_delayed hjob hdelayed
  have hm := (htaken.hset fun job => { job with state := .waiting }).wait .promoteDue rfl rfl rfl
    (.inl rfl)
  rw [hdelayed, hqueue] at hm
  refine .change (c := .promoteDue) hjob ?_ hdelayed (.promoteDue options jobId)
  have hread : (remDelayed ks options.queue jobId).jobs.get? jobId = some job := hjob
  unfold promoteOne
  simp only [hread]
  exact hm

/-- Every due job is promoted, whatever was promoted before it. -/
theorem promoteJobs_does {options : ClaimOptions} {ids : List JobId} (hnodup : ids.Nodup)
    (h : Consistent indexes ks)
    (hdelayed : ∀ id ∈ ids, ∃ job, ks.jobs.get? id = some job ∧ job.state = .delayed ∧
      job.queue = options.queue) :
    Does indexes (Allows now (.claim options)) ks (ids.foldl (promoteOne options.queue) ks) := by
  induction ids generalizing ks with
  | nil => exact .refl _ ks
  | cons id ids ih =>
    obtain ⟨hnotin, hnodup⟩ := List.nodup_cons.mp hnodup
    obtain ⟨job, hjob, hstate, hqueue⟩ := hdelayed id List.mem_cons_self
    have hfirst : Does indexes (Allows now (.claim options)) ks (promoteOne options.queue ks id) :=
      promoteOne_does now hjob hstate hqueue
    refine hfirst.trans (ih hnodup (hfirst.consistent h) fun id' hid' => ?_)
    obtain ⟨job', hjob', hrest⟩ := hdelayed id' (List.mem_cons_of_mem _ hid')
    refine ⟨job', ?_, hrest⟩
    have hne : id' ≠ id := fun heq => hnotin (heq ▸ hid')
    have hjobs : (promoteOne options.queue ks id).jobs = ks.jobs.modify id fun job =>
        { job with state := .waiting } := rfl
    rw [hjobs, JsMap.get?_modify, if_neg hne, hjob']

theorem promoteDue_does (now : ℤ) (h : Consistent indexes ks) (options : ClaimOptions) :
    Does indexes (Allows now (.claim options)) ks (promoteDue ks options.queue now) := by
  refine promoteJobs_does (ZSet.nodup_range _ _) h fun id hid => ?_
  obtain ⟨s, hs, -⟩ := ZSet.mem_range.mp hid
  obtain ⟨job, hjob, hstate, hqueue, -⟩ := h.of_delayed hs
  exact ⟨job, hjob, hstate, hqueue⟩

theorem seq_promoteDue (ks : Keyspace V) (queue : QueueName) (now : ℤ) :
    (promoteDue ks queue now).seq = ks.seq := by
  unfold promoteDue
  generalize (ks.delayed queue).range _ = ids
  induction ids generalizing ks with
  | nil => rfl
  | cons id ids ih => exact ih (promoteOne queue ks id)

theorem claim_does (h : Consistent indexes ks) (hseq : ks.seq < 10 ^ 16) (options : ClaimOptions) :
    Does indexes (Allows now (.claim options)) ks (claim ks options now).2 := by
  have hpromoted := promoteDue_does now h options
  have hconsistent := hpromoted.consistent h
  have hbound : (promoteDue ks options.queue now).seq < 10 ^ 16 := by rwa [seq_promoteDue]
  unfold claim
  dsimp only
  generalize promoteDue ks options.queue now = ks₁ at *
  split
  · exact hpromoted
  · split
    · exact hpromoted
    · rename_i member hfound
      obtain ⟨s, hs⟩ := ZSet.mem_members.mp (List.mem_of_find?_eq_some hfound)
      obtain ⟨id, job, hjob, hwaiting, hqueue, rfl, -⟩ := hconsistent.of_waiting hs
      have hid : waitingId (waitingMember job.seq id) = id :=
        waitingId_waitingMember ((hconsistent.sound id job hjob).seq.trans_lt hbound) id
      rw [hid, hjob]
      dsimp only
      have htaken : Taken indexes ks₁ _ id job job (ks₁.attempts id) := taken_waiting hjob hwaiting
      have hm := (htaken.hset fun job => claimHash job options now).activate (.claim options now) rfl rfl rfl
        rfl (.inl rfl)
      rw [hwaiting, hqueue] at hm
      exact hpromoted.trans (.change hjob hm hwaiting (.claim options id))

/-! ### Child results -/

theorem recordReport_does (now : ℤ) {reports : List (ReportItem V)} {acc : RecordState V}
    (h : Consistent indexes acc.ks) {entry : ReportItem V × ℕ} (hentry : entry.1 ∈ reports) :
    Does indexes (Allows now (.recordChildResults reports)) acc.ks (recordReport acc entry).ks := by
  unfold recordReport
  dsimp only
  split
  · exact .refl _ acc.ks
  · split
    · exact .refl _ acc.ks
    · cases hjob : acc.ks.jobs.get? entry.1.flowId with
      | none =>
        refine .of_body (.quiet _) ?_
        have hsame : acc.ks.jobs.modify entry.1.flowId (fun job =>
            { job with flow := job.flow.map fun flow => countOutcome flow entry.1.outcome }) = acc.ks.jobs :=
          JsMap.modify_eq_self fun job hj => by rw [hjob] at hj; cases hj
        simp only [Keyspace.body, hset, hsame]
        rfl
      | some job =>
        have hm := moves_hset h hjob (.count entry.1.outcome) (fun job =>
          { job with flow := job.flow.map fun flow => countOutcome flow entry.1.outcome }) rfl rfl rfl rfl
          fun key => by cases key <;> rfl
        exact Does.trans (.change hjob hm trivial (.count hentry)) (.of_body (.quiet _) rfl)

theorem settleTouched_does {reports : List (ReportItem V)} (h : Consistent indexes ks)
    (replies : List RecordReply) (entry : JobId × Touch) :
    Ends (Does indexes (Allows now (.recordChildResults reports)) ks) Prod.snd
      (settleTouched now (replies, ks) entry) := by
  unfold settleTouched
  dsimp only
  split
  · exact .refl _ ks
  · rename_i job hjob
    split
    · exact .refl _ ks
    · rename_i flow hflow
      split
      · exact .refl _ ks
      · rename_i hparked
        rw [not_not] at hparked
        split
        · rename_i childKey _
          apply Ends.answer
          obtain ⟨hsettled, marked, hjob'⟩ := settleMarkRows_does
            (P := Allows now (.recordChildResults reports)) (.quiet _) h hjob fun marked => .settle ..
          have hconsistent := hsettled.consistent h
          refine .after hsettled ?_
          have htaken : Taken indexes (settleMarkRows ks entry.1) _ entry.1 _ _ _ :=
            taken_parked hjob' hparked
          have hm := ((htaken.hset fun job =>
            { job with
              state := .failed, finishedAt := some now, cancelRequested := false,
              failedReason := failFastReason childKey }).append .failed job.processedAt now none).finish
                (.finish (.failFast childKey) now) rfl rfl .failed rfl rfl
                  (.inl rfl)
          have hstate : ((Change.settle marked).apply job).state = .waitingChildren := hparked
          rw [hstate] at hm
          refine Moved.does (.of_change hjob' hm hparked (.failFast ..) (fun hs => by cases hs)
            (wrapUp_trims _ _ _ _ ?_)) (.quiet _) (.prune trivial)
          exact hconsistent.write (hm.writes hconsistent hjob')
        · split
          · rename_i hpending
            have htaken : Taken indexes ks ks entry.1 job job (ks.attempts entry.1) :=
              taken_parked hjob hparked
            have hm := (htaken.bump.hset fun job =>
              { job with state := .waiting, runAt := now, seq := ks.seq + 1 }).wait
                (.resume now (ks.seq + 1)) rfl rfl rfl (.inr ⟨Nat.lt_succ_self _, le_rfl⟩)
            rw [hparked] at hm
            exact .change hjob hm ⟨hparked, flow, hflow, hpending⟩ (.resumeParent ..)
          · exact .refl _ ks

/-- A loop that can stop, each iteration a chain. -/
theorem Ends.foldlM_does {α β : Type} {left : β → Keyspace V} {f : β → α → Except (Keyspace V) β}
    (hstep : ∀ b a, Consistent indexes (left b) → Ends (Does indexes P (left b)) left (f b a))
    (as : List α) (b : β) (hb : Consistent indexes (left b)) :
    Ends (Does indexes P (left b)) left (as.foldlM f b) := by
  apply Ends.foldlM _ as b (.refl P _)
  intro b' a hb'
  have hnext := hstep b' a (hb'.consistent hb)
  cases hf : f b' a with
  | ok b'' =>
    rw [hf] at hnext
    exact hb'.trans hnext
  | error ks' =>
    rw [hf] at hnext
    exact hb'.trans hnext

theorem recordChildResults_does (h : Consistent indexes ks) (reports : List (ReportItem V)) :
    Does indexes (Allows now (.recordChildResults reports)) ks
      (leaves (recordChildResults ks reports now)) := by
  have hrecorded : ∀ (entries : List (ReportItem V × ℕ)) (acc : RecordState V),
      Consistent indexes acc.ks → (∀ entry ∈ entries, entry.1 ∈ reports) →
      Does indexes (Allows now (.recordChildResults reports)) acc.ks
        (entries.foldl recordReport acc).ks := by
    intro entries
    induction entries with
    | nil => exact fun acc _ _ => .refl _ acc.ks
    | cons entry entries ih =>
      intro acc hacc hmem
      have hfirst := recordReport_does now hacc (hmem entry List.mem_cons_self)
      exact hfirst.trans (ih _ (hfirst.consistent hacc) fun e he => hmem e (List.mem_cons_of_mem _ he))
  have hphase := hrecorded reports.zipIdx ⟨ks, reports.map fun _ => ⟨false, false⟩, ∅⟩ h
    fun entry hentry => List.fst_mem_of_mem_zipIdx hentry
  apply Ends.leaves
  unfold recordChildResults
  dsimp only
  generalize reports.zipIdx.foldl recordReport ⟨ks, reports.map fun _ => ⟨false, false⟩, ∅⟩ = recorded
    at hphase ⊢
  refine .after hphase ?_
  exact Ends.foldlM_does (fun acc entry hacc => settleTouched_does hacc acc.1 entry) _
    (recorded.replies, recorded.ks) (hphase.consistent h)

/-! ### Sweeps -/

theorem sweepMember_does (now : ℤ) {state : TerminalState} {ttl : Option JsNumber} (limit offset : ℕ)
    (h : Consistent indexes ks) (page : SweepPage) {member : JobId × ℤ}
    (hterminal : ∀ job, ks.jobs.get? member.1 = some job → job.state.isTerminal = true) :
    Does indexes (Allows now (.sweepState state ttl limit offset)) ks
        (sweepMember state ttl now (page, ks) member).2 ∧
      ∀ id job, (sweepMember state ttl now (page, ks) member).2.jobs.get? id = some job →
        ks.jobs.get? id = some job := by
  unfold sweepMember
  dsimp only
  split
  · rename_i hnone
    -- no orphan is listed
    have habsent : (ks.finished state.toJobState).rem member.1 = ks.finished state.toJobState := by
      apply ZSet.rem_of_score?_eq_none
      rw [Option.eq_none_iff_forall_ne_some]
      intro s hs
      obtain ⟨job, hjob, -⟩ := h.of_finished hs
      rw [hnone] at hjob
      cases hjob
    rw [habsent, upd_self]
    exact ⟨.refl _ ks, fun _ _ hjob => hjob⟩
  · rename_i job hjob
    split
    · exact ⟨.refl _ ks, fun _ _ hjob => hjob⟩
    · split
      · refine ⟨.single (deleteJob_prune h hjob (hterminal job hjob)) (.prune (by exact trivial) _), ?_⟩
        intro id job' hjob'
        rw [deleteJob_jobs] at hjob'
        split at hjob'
        · cases hjob'
        · exact hjob'
      · exact ⟨.refl _ ks, fun _ _ hjob => hjob⟩

theorem sweepState_does (h : Consistent indexes ks) (state : TerminalState) (ttl : Option JsNumber)
    (limit offset : ℕ) :
    Does indexes (Allows now (.sweepState state ttl limit offset)) ks
      (sweepState ks state ttl limit offset now).2 := by
  have hbatch : ∀ (members : List (JobId × ℤ)) (acc : SweepPage × Keyspace V),
      Consistent indexes acc.2 →
      (∀ member ∈ members, ∀ job, acc.2.jobs.get? member.1 = some job → job.state.isTerminal = true) →
      Does indexes (Allows now (.sweepState state ttl limit offset)) acc.2
        (members.foldl (sweepMember state ttl now) acc).2 := by
    intro members
    induction members with
    | nil => exact fun acc _ _ => .refl _ acc.2
    | cons member members ih =>
      intro acc hacc hterminal
      obtain ⟨hfirst, hkept⟩ := sweepMember_does now limit offset hacc acc.1
        (hterminal member List.mem_cons_self)
      exact hfirst.trans (ih _ (hfirst.consistent hacc) fun m hm job hjob =>
        hterminal m (List.mem_cons_of_mem _ hm) job (hkept _ _ hjob))
  refine hbatch _ (⟨0, 0⟩, ks) h fun member hmember job hjob => ?_
  have hlisted := List.mem_of_mem_filter (List.mem_of_mem_drop (List.mem_of_mem_take hmember))
  obtain ⟨job', hjob', hstate, hterminal, -⟩ := h.of_finished (ZSet.mem_withScores.mp hlisted)
  obtain rfl := Option.some.inj (hjob.symm.trans hjob')
  rw [hstate]
  exact hterminal

/-! ### The list-index reconcile -/

/-- Whether a store maintains a list index. -/
def IndexConfig.maintains (indexes : IndexConfig) : IndexKind → Bool
  | .name => indexes.name
  | .queue => indexes.queue

theorem indexInto_self {kind : IndexKind} (hkind : indexes.maintains kind = true)
    (h : Consistent indexes ks) : indexInto kind ks jobId = ks := by
  unfold indexInto
  split
  · rfl
  · rename_i job hjob
    cases kind with
    | name =>
      have hlisted : job.listed indexes jobId (.byname job.name) = some (jobId, job.enqueuedAt) :=
        if_pos ⟨hkind, rfl⟩
      have hself : (ks.byname job.name).add jobId job.enqueuedAt = ks.byname job.name :=
        ZSet.add_of_score? (h.score? hjob _ hlisted)
      dsimp only
      rw [hself, upd_self]
    | queue =>
      have hlisted : job.listed indexes jobId (.byqueue job.queue) = some (jobId, job.enqueuedAt) :=
        if_pos ⟨hkind, rfl⟩
      have hself : (ks.byqueue job.queue).add jobId job.enqueuedAt = ks.byqueue job.queue :=
        ZSet.add_of_score? (h.score? hjob _ hlisted)
      dsimp only
      rw [hself, upd_self]

/-- There is nothing to heal. -/
theorem indexMembers_self {kind : IndexKind} (hkind : indexes.maintains kind = true)
    (h : Consistent indexes ks) (ids : List JobId) : indexMembers ks kind ids = ks := by
  induction ids with
  | nil => rfl
  | cons id ids ih =>
    refine Eq.trans ?_ ih
    rw [indexMembers, List.foldl_cons, indexInto_self hkind h]
    rfl

/-! ### Every script -/

/-- The reconcile runs for the list indexes a store maintains. -/
def Script.Fits (indexes : IndexConfig) : Script V → Prop
  | .indexMembers kind _ | .indexTailPage kind _ _ _ => indexes.maintains kind = true
  | _ => True

/-- What a script does is a chain of steps that it allows. The number of a waiting member is cut off
at sixteen digits. -/
theorem run_does (h : Consistent indexes ks) (hseq : ks.seq < 10 ^ 16) (now : ℤ) (script : Script V)
    (hfits : script.Fits indexes) :
    Does indexes (Allows now script) ks (ks.run indexes now script) := by
  have hquiet : ∀ ks', ks'.body = ks.body → Does indexes (Allows now script) ks ks' :=
    fun ks' => .of_body (.quiet script)
  cases script with
  | enqueue mode id request => exact enqueue_does mode request
  | enqueueMany items =>
    have hitems : ∀ (rest : List (BatchItem V)) (acc : List EnqueueReply × Keyspace V),
        (∀ item ∈ rest, item ∈ items) → Does indexes (Allows now (.enqueueMany items)) acc.2
          (rest.foldl (enqueueItem indexes now) acc).2 := by
      intro rest
      induction rest with
      | nil => exact fun acc _ => .refl _ acc.2
      | cons item rest ih =>
        intro acc hmem
        exact (enqueueItem_does (hmem item List.mem_cons_self) acc.1).trans
          (ih _ fun i hi => hmem i (List.mem_cons_of_mem _ hi))
    exact hitems items ([], ks) fun item hitem => hitem
  | claim options => exact claim_does h hseq options
  | ack id token outcome => exact (ack_fenced now h token outcome).does (.quiet _) (.prune trivial)
  | fanOut id token chunk => exact fanOut_does h token chunk
  | release id token => exact (release_fenced now h token).does (.quiet _) (.prune trivial)
  | extendLocks locks durationMs =>
    have hlocks : ∀ (rest : List Lock) (acc : ExtendReply × Keyspace V), Consistent indexes acc.2 →
        (∀ lock ∈ rest, lock ∈ locks) → Does indexes (Allows now (.extendLocks locks durationMs)) acc.2
          (rest.foldl (extendLock now durationMs) acc).2 := by
      intro rest
      induction rest with
      | nil => exact fun acc _ _ => .refl _ acc.2
      | cons lock rest ih =>
        intro acc hacc hmem
        have hfirst := extendLock_does now hacc durationMs acc.1 (hmem lock List.mem_cons_self)
        exact hfirst.trans (ih _ (hfirst.consistent hacc) fun l hl => hmem l (List.mem_cons_of_mem _ hl))
    exact hlocks locks (⟨[], []⟩, ks) h fun lock hlock => hlock
  | recoverStalled maxStalledCount =>
    apply Ends.leaves
    exact Ends.foldlM_does (fun acc id hacc => recoverJob_does hacc maxStalledCount acc.1) _ ([], ks) h
  | remove id => exact remove_does h
  | retry id => exact retry_does h
  | cancel id => exact cancel_does h
  | promote id => exact promote_does
  | pause queue =>
    apply hquiet
    change (pause ks queue).body = ks.body
    unfold pause
    split <;> rfl
  | resume queue => exact hquiet _ rfl
  | upsertSchedule schedule => exact hquiet _ rfl
  | removeSchedule key => exact hquiet _ rfl
  | advanceSchedule key expectedRunAt nextRunAt =>
    exact hquiet _ (body_advanceSchedule ks key expectedRunAt nextRunAt)
  | tickSchedule key expectedRunAt nextRunAt id request =>
    exact tickSchedule_does key expectedRunAt nextRunAt request
  | recordChildResults reports => exact recordChildResults_does h reports
  | flowSweepWork pendingAgeMs limit =>
    exact hquiet _ (body_foldl_snd (body_sweepPending now) _ ([], ks))
  | markChildrenCascaded flowId childKeys => exact hquiet _ (body_foldl (f := markCascaded flowId) (fun _ _ => rfl) childKeys ks)
  | deleteOutbox ids => exact hquiet _ rfl
  | sweepState state ttl limit offset => exact sweepState_does h state ttl limit offset
  | sweepDedupes limit => exact hquiet _ (body_sweepDedupes ks limit now)
  | indexMembers kind ids =>
    change Does indexes _ ks (indexMembers ks kind ids)
    rw [indexMembers_self hfits h]
    exact .refl _ ks
  | indexTailPage kind min offset pageSize =>
    change Does indexes _ ks (indexMembers ks kind _)
    rw [indexMembers_self hfits h]
    exact .refl _ ks
  | setReady kind bootAt => exact hquiet _ rfl

end Scripts

end EffectMq.Redis
