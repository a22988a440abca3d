import EffectMq.MemoryJobStore.Wake

/-! # The dedup registry and the jobs it names

Operations other than an enqueue only take entries out of the registry, and only spent ones whose job
has ended or is gone (`Frees`, `exec_frees`). The entry of a key therefore names a job of that key as
long as no id it still names is enqueued again by another name or key, and then a dedup hit, a replace
and a cancel by key touch no foreign job (`dedupe_touches_own`).
-/

namespace EffectMq.Memory
set_option autoImplicit false
set_option maxHeartbeats 250000

open Transition

variable {V : Type}

/-! ## Entries that go -/

/-- The job has reached a terminal state or is unknown. -/
def Core.Ended (c : Core V) (id : JobId) : Prop :=
  ∀ job, c.jobs.get? id = some job → job.state.isTerminal = true

structure Frees (now : Millis) (s t : Store V) : Prop where
  kept : ∀ key entry, t.dedupes.get? key = some entry → s.dedupes.get? key = some entry
  freed : ∀ key entry, s.dedupes.get? key = some entry → t.dedupes.get? key = some entry ∨
    entry.spent now = true ∧ (entry.expiresAt = none → t.toCore.Ended entry.jobId)
  ended : ∀ id, s.toCore.Ended id → t.toCore.Ended id

theorem Frees.refl (now : Millis) (s : Store V) : Frees now s s :=
  ⟨fun _ _ h => h, fun _ _ h => .inl h, fun _ h => h⟩

theorem Frees.trans {now : Millis} {s t u : Store V} (h : Frees now s t) (h' : Frees now t u) :
    Frees now s u := by
  refine ⟨fun key entry hu => h.kept key entry (h'.kept key entry hu), fun key entry hs => ?_,
    fun id hid => h'.ended id (h.ended id hid)⟩
  rcases h.freed key entry hs with ht | ⟨hspent, hended⟩
  · exact h'.freed key entry ht
  · exact .inr ⟨hspent, fun hnone => h'.ended _ (hended hnone)⟩

theorem Frees.of_ended {now : Millis} {s t : Store V} (heq : t.dedupes = s.dedupes)
    (hended : ∀ id, s.toCore.Ended id → t.toCore.Ended id) : Frees now s t :=
  ⟨fun _ _ h => heq ▸ h, fun _ _ h => .inl (heq ▸ h), hended⟩

/-- The elementary steps that give no id a new life. -/
def Label.Closing : Label V → Prop
  | .insert _ _ _ _ => False
  | .move _ (.retry _ _) => False
  | _ => True

theorem closing_ended {c c' : Core V} (hk : c.Keyed) (h : Does Label.Closing c c') {id : JobId}
    (hid : c.Ended id) : c'.Ended id := by
  refine h.view hk id (I := fun v => ∀ job, v.job = some job → job.state.isTerminal = true)
    (fun l v v' hl hstep _ hv job' hj => ?_) hid
  cases hstep with
  | same | rearm | cascade => exact hv job' hj
  | insert => exact hl.elim
  | remove | prune => cases hj
  | promote now _ hd =>
    have hterm := hv _ rfl
    rw [hd] at hterm
    cases hterm
  | move m _ hm =>
    have hterm := hv _ rfl
    cases m with
    | retry => exact hl.elim
    | _ => simp_all [Move.Enabled, JobState.isTerminal]
  | finish e _ _ he | settle e _ _ he =>
    cases hj
    rw [endJob_state, isTerminal_toJobState]
  | fanOut _ _ _ _ ha | refan _ _ _ _ ha =>
    have hterm := hv _ rfl
    rw [ha] at hterm
    cases hterm
  | report job? =>
    obtain ⟨job, rfl, rfl⟩ := Option.map_eq_some_iff.mp hj
    exact hv job rfl

theorem Frees.of_does {now : Millis} {s t : Store V} (hk : s.toCore.Keyed)
    (heq : t.dedupes = s.dedupes) (h : Does Label.Closing s.toCore t.toCore) : Frees now s t :=
  .of_ended heq fun _ => closing_ended hk h

/-! ## Terminal transitions -/

theorem releaseDedupe_kept {s : Store V} {job : MemJob V} {now : Millis} {key : String}
    {entry : DedupeEntry} (h : (releaseDedupe s job now).dedupes.get? key = some entry) :
    s.dedupes.get? key = some entry := by
  unfold releaseDedupe at h
  split at h
  · exact h
  · simp only at h
    split at h
    · exact h
    · split at h
      · rw [JsMap.get?_delete] at h
        split at h
        · cases h
        · exact h
      · exact h

/-- The entry a job gives up is its own, and spent. -/
theorem releaseDedupe_freed {s : Store V} (job : MemJob V) (now : Millis) {key : String}
    {entry : DedupeEntry} (h : s.dedupes.get? key = some entry) :
    (releaseDedupe s job now).dedupes.get? key = some entry ∨
      entry.jobId = job.id ∧ entry.spent now = true := by
  unfold releaseDedupe
  split
  · exact .inl h
  · simp only
    split
    · exact .inl h
    · rename_i hentry
      split
      · rename_i hown
        rw [JsMap.get?_delete]
        split
        · rename_i heq
          rw [← heq, h] at hentry
          cases hentry
          exact .inr hown
        · exact .inl h
      · exact .inl h

theorem putJob_ended {c : Core V} {job : MemJob V} (hst : job.state.isTerminal = true) {id : JobId}
    (h : id = job.id ∨ c.Ended id) : (c.putJob job).Ended id := by
  intro job' hj
  rw [putJob_get?] at hj
  split at hj
  · cases hj
    exact hst
  · rename_i hne
    exact (h.resolve_left hne) job' hj

theorem dedupes_withCore (s : Store V) (c : Core V) : { s with toCore := c }.dedupes = s.dedupes :=
  rfl

/-- A record written in a terminal state, its report, and the release of its entry. -/
theorem end_frees {s t : Store V} (hsame : t.dedupes = s.dedupes) (hjobs : t.jobs = s.jobs)
    {job : MemJob V} (outcome : TerminalState) (now : Millis) (hst : job.state.isTerminal = true) :
    Frees now s (releaseDedupe { t with toCore := (t.toCore.putJob job).appendOutbox job outcome }
      job now) := by
  generalize hu : { t with toCore := (t.toCore.putJob job).appendOutbox job outcome } = u
  have hsame' : u.dedupes = s.dedupes := by rw [← hu, ← hsame]
  have hended : ∀ id, id = job.id ∨ s.toCore.Ended id →
      (releaseDedupe u job now).toCore.Ended id := by
    intro id hid job' hj
    rw [releaseDedupe_toCore, ← hu, appendOutbox_jobs] at hj
    exact putJob_ended hst (hid.imp_right fun h job' hj' => h job' (hjobs ▸ hj')) job' hj
  refine ⟨fun key entry h => ?_, fun key entry h => ?_, fun id hid => hended id (.inr hid)⟩
  · exact hsame' ▸ releaseDedupe_kept h
  · rw [← hsame'] at h
    rcases releaseDedupe_freed job now h with hkept | ⟨hid, hspent⟩
    · exact .inl hkept
    · exact .inr ⟨hspent, fun _ => hended _ (.inl hid)⟩

theorem terminate_frees {s t : Store V} (hsame : t.dedupes = s.dedupes) (hjobs : t.jobs = s.jobs)
    {job : MemJob V} (outcome : TerminalState) (now : Millis) (hst : job.state.isTerminal = true) :
    Frees now s (t.terminate job outcome now) :=
  (end_frees hsame hjobs outcome now hst).trans
    (.of_ended rfl fun _ hid job' hj => hid job' (applyKeep_get? hj))

theorem markCancelled_frees {s t : Store V} (hsame : t.dedupes = s.dedupes)
    (hjobs : t.jobs = s.jobs) (job : MemJob V) (now : Millis) :
    Frees now s (markCancelled t job now) := by
  unfold markCancelled
  simp only [settleIfParked_eq]
  refine terminate_frees ?_ ?_ .cancelled now ?_
  · exact hsame
  · exact (settledRows_jobs ..).trans hjobs
  · rfl

/-! ## Operations -/

theorem Frees.put {now : Millis} {s t : Store V} {job : MemJob V} (job' : MemJob V)
    (hj : s.jobs.get? job'.id = some job) (hst : job.state.isTerminal = false)
    (hsame : t.dedupes = s.dedupes) (hjobs : t.jobs = s.jobs.set job'.id job') : Frees now s t := by
  refine .of_ended hsame fun id hid job'' hj' => ?_
  rw [hjobs, JsMap.get?_set] at hj'
  split at hj'
  · rename_i heq
    subst heq
    have hended := hid job hj
    rw [hst] at hended
    cases hended
  · exact hid job'' hj'

theorem signalWake_dedupes (s : Store V) (queue : Option QueueName) :
    (signalWake s queue).dedupes = s.dedupes := by
  cases queue <;> rfl

theorem signalWake_jobs (s : Store V) (queue : Option QueueName) :
    (signalWake s queue).jobs = s.jobs := by
  rw [signalWake_toCore]

theorem Frees.putSignalled {now : Millis} {s t : Store V} {job : MemJob V}
    {queue : Option QueueName} (job' : MemJob V) (hj : s.jobs.get? job'.id = some job)
    (hst : job.state.isTerminal = false) (hsame : t.dedupes = s.dedupes)
    (hjobs : t.jobs = s.jobs.set job'.id job') : Frees now s (signalWake t queue) :=
  .put job' hj hst ((signalWake_dedupes ..).trans hsame) ((signalWake_jobs ..).trans hjobs)

theorem makeRunnable_frees {now : Millis} {s t : Store V} {job job₀ : MemJob V}
    (hj : s.jobs.get? job.id = some job₀) (hst : job₀.state.isTerminal = false)
    (hsame : t.dedupes = s.dedupes) (hjobs : t.jobs = s.jobs) :
    Frees now s (makeRunnable t job now) := by
  unfold makeRunnable
  refine .putSignalled { job with state := .waiting, runAt := now, seq := t.seq + 1 } hj hst ?_ ?_
  · exact hsame
  · rw [← hjobs]
    rfl

theorem cancelJob_frees {s : Store V} (hk : s.toCore.Keyed) (now : Millis) (id : JobId) :
    Frees now s (cancelJob s now id).2 := by
  unfold cancelJob
  split
  · exact .refl now s
  · rename_i job hj
    split
    · exact markCancelled_frees rfl rfl job now
    · exact markCancelled_frees rfl rfl job now
    · exact markCancelled_frees rfl rfl job now
    · rename_i hst
      obtain rfl := hk _ _ hj
      exact .put { job with cancelRequested := true } hj (by rw [hst]; rfl) rfl rfl
    · exact .refl now s

theorem ackFanOut_frees {s : Store V} (now : Millis) {job job₀ : MemJob V} (failFast : Bool)
    (children : List (FlowChildSpec V)) (hj : s.jobs.get? job.id = some job₀)
    (hst : job₀.state.isTerminal = false) :
    Frees now s (ackFanOut s now job failFast children) := by
  unfold ackFanOut
  simp only [openManifest_eq]
  split
  · refine markCancelled_frees (dedupes_withCore s _) ?_ _ now
    rw [settleMarkRows_jobs, fanOutRows_jobs]
  · split
    · refine .put { recordAttempt job .fannedOut now none with
        flow := some (manifest (recordAttempt job .fannedOut now none) failFast children),
        state := .waitingChildren } hj hst (dedupes_withCore s _) ?_
      show (s.toCore.fanOutRows _ children now).jobs.set _ _ = _
      rw [fanOutRows_jobs]
    · exact makeRunnable_frees hj hst (dedupes_withCore s _) (fanOutRows_jobs ..)

theorem ackOutcome_frees {s : Store V} (now : Millis) {job : MemJob V} (outcome : AckOutcome V)
    (hj : s.jobs.get? job.id = some job) (hst : job.state.isTerminal = false) :
    Frees now s (ackOutcome s now job outcome) := by
  unfold ackOutcome
  cases outcome with
  | complete | fail | cancelled => exact terminate_frees rfl rfl _ now rfl
  | fanOut failFast children => exact ackFanOut_frees now failFast children hj hst
  | retry delayMs exit =>
    simp only
    split
    · exact markCancelled_frees rfl rfl _ now
    · exact .putSignalled ((Move.requeue delayMs exit now (s.seq + 1)).apply job) hj hst rfl rfl

theorem ack_frees {s : Store V} (hk : s.toCore.Keyed) (now : Millis) (id : JobId) (token : String)
    (outcome : AckOutcome V) : Frees now s (ack s now id token outcome).2 := by
  cases hres : (ack s now id token outcome).1 with
  | error e =>
    rw [ack_error hres]
    exact .refl now s
  | ok u =>
    obtain ⟨job, hj, ha, _, heq⟩ := ack_ok hres
    obtain rfl := hk _ _ hj
    rw [heq]
    exact ackOutcome_frees now outcome hj (by rw [ha]; rfl)

theorem release_frees {s : Store V} (hk : s.toCore.Keyed) (now : Millis) (id : JobId)
    (token : String) : Frees now s (release s now id token).2 := by
  unfold release
  split
  · exact .refl now s
  · rename_i job hj
    obtain rfl := hk _ _ hj
    split
    · exact .refl now s
    · rename_i hlock
      split
      · exact markCancelled_frees rfl rfl job now
      · have ha : job.state = .active := by_contra fun h => hlock (.inl h)
        show Frees now s (signalWake (s.putJob (Move.release.apply job)) (some job.queue))
        exact .putSignalled (Move.release.apply job) hj (by rw [ha]; rfl) rfl rfl

theorem recoverJob_frees (now : Millis) (maxStalledCount : ℤ) (acc : List Recovered × Store V)
    (id : JobId) (hk : acc.2.toCore.Keyed) :
    Frees now acc.2 (recoverJob now maxStalledCount acc id).2 := by
  unfold recoverJob
  simp only
  split
  · exact .refl now _
  · rename_i job hj
    obtain rfl := hk _ _ hj
    split
    · rename_i ha _
      split
      · exact .refl now _
      · split
        · exact markCancelled_frees rfl rfl job now
        · split
          · exact end_frees rfl rfl .failed now rfl
          · refine .put ((Move.stall now).apply job) hj ?_ rfl rfl
            rw [ha]
            rfl
    · exact .refl now _

theorem recoverStalled_frees {s : Store V} (hk : s.toCore.Keyed) (now : Millis)
    (maxStalledCount : ℤ) : Frees now s (recoverStalled s now maxStalledCount).2 := by
  have hfold : ∀ (ids : List JobId) (acc : List Recovered × Store V), acc.2.toCore.Keyed →
      Frees now s acc.2 → Frees now s (ids.foldl (recoverJob now maxStalledCount) acc).2 := by
    intro ids
    induction ids with
    | nil => exact fun acc _ h => h
    | cons id ids ih =>
      intro acc hk h
      have hdoes := recoverJob_does (P := fun _ => True) now maxStalledCount acc id hk trivial trivial
        trivial fun _ => trivial
      exact ih _ (hdoes.keyed hk) (h.trans (recoverJob_frees now maxStalledCount acc id hk))
  have h := hfold s.jobs.keys ([], s) hk (.refl now s)
  unfold recoverStalled
  simp only
  split
  · exact h.trans (.of_ended (signalWake_dedupes ..) fun id hid => by rwa [signalWake_toCore])
  · exact h

theorem settleFailFast_frees {s : Store V} (now : Millis) (parent : MemJob V) (childKey : String) :
    Frees now s (settleFailFast s now parent childKey) := by
  unfold settleFailFast
  simp only [settleMarkRows_eq]
  exact terminate_frees (dedupes_withCore s _) (markPendingRowsCancelled_jobs ..) .failed now rfl

theorem settleTouched_frees (now : Millis) (reports : List (FlowChildReport V))
    (acc : List ReportResult × Store V) (entry : JobId × Touch) (hk : acc.2.toCore.Keyed) :
    Frees now acc.2 (settleTouched now reports acc entry).2 := by
  unfold settleTouched
  simp only
  split
  · exact .refl now _
  · rename_i parent hj
    obtain hid := hk _ _ hj
    rw [← hid] at hj
    split
    · exact .refl now _
    · split
      · exact .refl now _
      · rename_i hw
        split
        · exact settleFailFast_frees now parent _
        · split
          · refine makeRunnable_frees hj ?_ rfl rfl
            rw [show parent.state = .waitingChildren from by_contra hw]
            rfl
          · exact .refl now _

theorem recordChildResults_frees {s : Store V} (hk : s.toCore.Keyed) (now : Millis)
    (reports : List (FlowChildReport V)) : Frees now s (recordChildResults s now reports).2 := by
  have hfirst : Frees now s { s with toCore := (recorded s reports).core } := by
    refine .of_does hk (dedupes_withCore ..) ((recorded_reports s reports).mono fun l hl => ?_)
    obtain ⟨report, _, rfl⟩ := hl
    trivial
  have hfold : ∀ (entries : List (JobId × Touch)) (acc : List ReportResult × Store V),
      acc.2.toCore.Keyed → Frees now s acc.2 →
      Frees now s (entries.foldl (settleTouched now reports) acc).2 := by
    intro entries
    induction entries with
    | nil => exact fun acc _ h => h
    | cons entry entries ih =>
      intro acc hk h
      exact ih _ ((settleTouched_does now reports acc entry hk).keyed hk)
        (h.trans (settleTouched_frees now reports acc entry hk))
  exact hfold _ _ ((recorded_reports s reports).keyed hk) hfirst

/-- The sweep drops the windows that are over and the pending entries without a pending job. -/
theorem sweepHistory_frees {s : Store V} (hk : s.toCore.Keyed) (now : Millis)
    (ttlByState : HistoryTtlByState) : Frees now s (sweepHistory s now ttlByState) := by
  have hended : ∀ id, s.toCore.Ended id → (sweepHistory s now ttlByState).toCore.Ended id :=
    fun id => closing_ended hk ((sweepHistory_does hk now ttlByState).mono fun l hl => by
      cases hl; trivial)
  have hget : ∀ key, (sweepHistory s now ttlByState).dedupes.get? key =
      (s.dedupes.get? key).filter (dedupeAlive (sweepHistory s now ttlByState).toCore now) :=
    fun key => JsMap.get?_filter ..
  refine ⟨fun key entry h => ?_, fun key entry h => ?_, hended⟩
  · rw [hget] at h
    exact (Option.filter_eq_some_iff.mp h).1
  · rw [hget, h, Option.filter_some]
    split
    · exact .inl rfl
    · rename_i hdead
      refine .inr ?_
      unfold dedupeAlive at hdead
      unfold DedupeEntry.spent
      split at hdead
      · rename_i t ht
        rw [ht]
        exact ⟨decide_eq_true (not_lt.mp fun hlt => hdead (decide_eq_true hlt)), nofun⟩
      · rename_i hnone
        rw [hnone]
        refine ⟨rfl, fun _ job hj => ?_⟩
        rw [hj] at hdead
        simpa using hdead

/-- The operations that insert a job, and the one that gives a failed job a new life. -/
def Op.Opens : Op V → Prop
  | .enqueue _ _ | .resumeEnqueue _ _ | .tickSchedule _ _ _ _ | .retry _ => True
  | _ => False

theorem exec_frees {s : Store V} (hk : s.toCore.Keyed) (now : Millis) {op : Op V}
    (hop : ¬ op.Opens) : Frees now s (exec s now op) := by
  have hclosing : ∀ l, Allows now op l → l.Closing := by
    intro l hl
    cases hl <;> first | trivial | exact absurd trivial hop
  have hsame : (exec s now op).dedupes = s.dedupes → Frees now s (exec s now op) := fun heq =>
    .of_does hk heq ((exec_does hk now op).mono hclosing)
  cases op with
  | enqueue | resumeEnqueue | tickSchedule | retry => exact absurd trivial hop
  | ack id token outcome => exact ack_frees hk now id token outcome
  | release id token => exact release_frees hk now id token
  | recoverStalled maxStalledCount => exact recoverStalled_frees hk now maxStalledCount
  | cancel id => exact cancelJob_frees hk now id
  | cancelByDedupe name key =>
    simp only [exec, cancelByDedupe]
    split
    · exact .refl now s
    · rename_i entry _
      have h := cancelJob_frees hk now entry.jobId
      split <;> rename_i hc <;> rw [hc] at h <;> exact h
  | recordChildResults reports => exact recordChildResults_frees hk now reports
  | sweepHistory ttlByState => exact sweepHistory_frees hk now ttlByState
  | claim options =>
    refine hsame ?_
    simp only [exec, claim]
    split
    · split <;> rfl
    · rfl
  | extendLocks locks durationMs =>
    refine hsame ?_
    rw [exec, extendLocks_store]
  | awaitWake queues wakeToken =>
    refine hsame ?_
    simp only [exec, awaitWake]
    split <;> rfl
  | promote id =>
    refine hsame ?_
    simp only [exec, promote]
    split
    · rfl
    · split <;> rfl
  | pause queue =>
    refine hsame ?_
    simp only [exec, pause]
    split <;> rfl
  | resume queue =>
    refine hsame ?_
    simp only [exec, resume]
    split <;> rfl
  | advanceSchedule key expectedRunAt nextRunAt =>
    refine hsame ?_
    simp only [exec, advanceSchedule]
    split
    · rfl
    · split <;> rfl
  | remove id =>
    refine hsame ?_
    simp only [exec, remove]
    split
    · rfl
    · split <;> rfl
  | dropWaiter | upsertSchedule | removeSchedule | deleteOutbox | flowSweepWork
  | markChildrenCascaded => exact hsame rfl

/-! ## Names and keys are for life -/

/-- The registry key of a job. -/
def MemJob.mapKey? (job : MemJob V) : Option String :=
  job.dedupeKey.map (dedupeMapKey job.name)

structure SameKey (job job' : MemJob V) : Prop where
  name : job'.name = job.name
  dedupeKey : job'.dedupeKey = job.dedupeKey

theorem SameKey.mapKey? {job job' : MemJob V} (h : SameKey job job') : job'.mapKey? = job.mapKey? := by
  rw [MemJob.mapKey?, MemJob.mapKey?, h.name, h.dedupeKey]

theorem newJob_mapKey? (id : JobId) (request : EnqueueRequest V) (now : Millis) (seq : ℕ) :
    (newJob id request now seq).mapKey? = requestMapKey? request := by
  simp [MemJob.mapKey?, requestMapKey?, newJob, Option.map_map, Function.comp_def]

theorem endJob_sameKey (job : MemJob V) (flow : Option FlowState) (now : Millis) (e : Ending V) :
    SameKey job (endJob { job with flow := flow } now e) := by
  cases e <;> exact ⟨rfl, rfl⟩

theorem Move.apply_sameKey (job : MemJob V) (m : Move V) : SameKey job (m.apply job) := by
  cases m <;> exact ⟨rfl, rfl⟩

/-- A job after an operation that inserts nothing has the name and key it had before. -/
theorem exec_sameKey {s : Store V} (hk : s.toCore.Keyed) (now : Millis) {op : Op V} {id : JobId}
    (hop : ∀ request t seq, ¬ Allows now op (.insert id request t seq)) {job' : MemJob V}
    (hj : (exec s now op).jobs.get? id = some job') :
    ∃ job, s.jobs.get? id = some job ∧ SameKey job job' := by
  let I : View V → Prop := fun v => ∀ job', v.job = some job' →
    ∃ job, s.jobs.get? id = some job ∧ SameKey job job'
  have hnext : ∀ {job job' : MemJob V}, (∃ job₀, s.jobs.get? id = some job₀ ∧ SameKey job₀ job) →
      SameKey job job' → ∃ job₀, s.jobs.get? id = some job₀ ∧ SameKey job₀ job' := by
    rintro job job' ⟨job₀, hj₀, h⟩ h'
    exact ⟨job₀, hj₀, h'.name.trans h.name, h'.dedupeKey.trans h.dedupeKey⟩
  have hI : I ((exec s now op).toCore.view id) := by
    refine (exec_does hk now op).view hk id (I := I) (fun l v v' hl hstep _ hv job' hj => ?_)
      fun job hj => ⟨job, hj, rfl, rfl⟩
    cases hstep with
    | same | rearm | cascade => exact hv job' hj
    | insert request t seq => exact absurd hl (hop request t seq)
    | remove | prune => cases hj
    | promote | fanOut | refan =>
      cases hj
      exact hnext (hv _ rfl) ⟨rfl, rfl⟩
    | move m =>
      cases hj
      exact hnext (hv _ rfl) (Move.apply_sameKey _ m)
    | @finish job e t | @settle job e t =>
      cases hj
      exact hnext (hv _ rfl) (endJob_sameKey job _ t e)
    | report job? =>
      obtain ⟨job, rfl, rfl⟩ := Option.map_eq_some_iff.mp hj
      exact hnext (hv job rfl) ⟨rfl, rfl⟩
  exact hI job' hj

/-! ## Entries name their own jobs -/

/-- A job that an entry names has the entry's registry key. -/
def Owned (s : Store V) : Prop :=
  ∀ key entry job, s.dedupes.get? key = some entry → s.jobs.get? entry.jobId = some job →
    job.mapKey? = some key

/-- No entry of another registry key still names the id. -/
def FreshFor (s : Store V) (request : EnqueueRequest V) (id : JobId) : Prop :=
  ∀ key entry, s.dedupes.get? key = some entry → entry.jobId = id →
    requestMapKey? request = some key

/-- No job of another name and key has the same registry key. -/
def Unaliased (s : Store V) (name key : String) : Prop :=
  ∀ id job k, s.jobs.get? id = some job → job.dedupeKey = some k →
    dedupeMapKey job.name k = dedupeMapKey name key → job.name = name ∧ k = key

/-- No id that a registry entry of another key still names is given to a new job, and no two jobs of
different names and keys share a registry key. -/
def KeepsOwners (s : Store V) : Millis × Op V → Prop
  | (now, .enqueue request ids) =>
    (enqueueDecision s now request = none → ∀ id, (assignId s request ids).1 = some id →
      FreshFor s request id) ∧
    ∀ dedupe, request.dedupe = some dedupe → Unaliased s request.name dedupe.key
  | (_, .resumeEnqueue request candidate) =>
    s.jobs.has candidate = false → FreshFor s request candidate
  | (_, .tickSchedule _ _ _ request) =>
    ∀ id, request.id = some id → s.jobs.has id = false → FreshFor s request id
  | (_, .cancelByDedupe name key) => Unaliased s name key
  | _ => True

/-- The jobs change, and the entries still name the same ids. -/
theorem Owned.of_sameKey {s t : Store V} (h : Owned s)
    (hentries : ∀ key entry', t.dedupes.get? key = some entry' →
      ∃ entry, s.dedupes.get? key = some entry ∧ entry.jobId = entry'.jobId)
    (hjobs : ∀ id job', t.jobs.get? id = some job' →
      ∃ job, s.jobs.get? id = some job ∧ SameKey job job') : Owned t := by
  intro key entry' job' he' hj'
  obtain ⟨entry, he, hid⟩ := hentries key entry' he'
  obtain ⟨job, hj, hsame⟩ := hjobs _ _ hj'
  rw [hsame.mapKey?]
  exact h key entry job he (hid ▸ hj)

theorem insertJobRecord_get? (s : Store V) (id : JobId) (request : EnqueueRequest V) (now : Millis)
    (id' : JobId) :
    (insertJobRecord s id request now).jobs.get? id' =
      if id' = id then some (newJob id request now (s.seq + 1)) else s.jobs.get? id' := by
  rw [insertJobRecord_toCore, putJob_get?]
  rfl

/-- A tick that inserts does so under the id of its request. -/
theorem tickSchedule_jobs (s : Store V) (now : Millis) (key : ScheduleKey)
    (expectedRunAt nextRunAt : Millis) (request : EnqueueRequest V) :
    (tickSchedule s now key expectedRunAt nextRunAt request).2.jobs = s.jobs ∨
      ∃ id, request.id = some id ∧ s.jobs.has id = false ∧
        ∀ id', (tickSchedule s now key expectedRunAt nextRunAt request).2.jobs.get? id' =
          if id' = id then some (newJob id request now (s.seq + 1)) else s.jobs.get? id' := by
  unfold tickSchedule
  split
  · exact .inl rfl
  · rename_i id hid
    split
    · exact .inl rfl
    · split
      · exact .inl rfl
      · simp only
        split
        · exact .inl rfl
        · rename_i hfree
          exact .inr ⟨id, hid, Bool.eq_false_iff.mpr hfree, insertJobRecord_get? _ id request now⟩

theorem tickSchedule_dedupes (s : Store V) (now : Millis) (key : ScheduleKey)
    (expectedRunAt nextRunAt : Millis) (request : EnqueueRequest V) :
    (tickSchedule s now key expectedRunAt nextRunAt request).2.dedupes = s.dedupes := by
  unfold tickSchedule
  split
  · rfl
  · split
    · rfl
    · split
      · rfl
      · simp only
        split <;> rfl

theorem retry_dedupes (s : Store V) (now : Millis) (id : JobId) :
    (retry s now id).2.dedupes = s.dedupes := by
  unfold retry
  split
  · rfl
  · split
    · rfl
    · exact signalWake_dedupes ..

/-- A candidate that is free is inserted. -/
theorem resumeEnqueue_cases (s : Store V) (now : Millis) (request : EnqueueRequest V)
    (candidate : JobId) :
    (resumeEnqueue s now request candidate).2 = s ∨ s.jobs.has candidate = false ∧
      (resumeEnqueue s now request candidate).2 = insertFresh s now request candidate := by
  unfold resumeEnqueue
  split
  · exact .inl rfl
  · rename_i hfree
    exact .inr ⟨Bool.eq_false_iff.mpr hfree, rfl⟩

/-- The entry of the request's own registry key after an insertion. -/
theorem insertFresh_entry (s : Store V) (now : Millis) (request : EnqueueRequest V) (id : JobId)
    (key : String) :
    (insertFresh s now request id).dedupes.get? key =
      if requestMapKey? request = some key then
        request.dedupe.map fun dedupe => ⟨id, dedupe.ttlMs.map fun ttl => now + ttl⟩
      else s.dedupes.get? key := by
  unfold insertFresh requestMapKey?
  cases hd : request.dedupe with
  | none => rfl
  | some dedupe =>
    simp only [JsMap.get?_set, Option.map_some, Option.some.injEq]
    by_cases hkey : dedupeMapKey request.name dedupe.key = key
    · rw [if_pos hkey.symm, if_pos hkey]
    · rw [if_neg (Ne.symm hkey), if_neg hkey]
      rfl

theorem Owned.insert {s t : Store V} (h : Owned s) {request : EnqueueRequest V} {id : JobId}
    (now : Millis) (seq : ℕ) (hfresh : FreshFor s request id)
    (hentries : ∀ key entry, t.dedupes.get? key = some entry →
      requestMapKey? request = some key ∧ entry.jobId = id ∨ s.dedupes.get? key = some entry)
    (hjobs : ∀ id', t.jobs.get? id' =
      if id' = id then some (newJob id request now seq) else s.jobs.get? id') : Owned t := by
  intro key entry job he hj
  rw [hjobs] at hj
  split at hj
  · rename_i hid
    cases hj
    rw [newJob_mapKey?]
    rcases hentries key entry he with ⟨hkey, _⟩ | he₀
    · exact hkey
    · exact hfresh key entry he₀ hid
  · rename_i hid
    rcases hentries key entry he with ⟨_, hid'⟩ | he₀
    · exact absurd hid' hid
    · exact h key entry job he₀ hj

theorem Owned.insertFresh {s t : Store V} (h : Owned s) {request : EnqueueRequest V} {id : JobId}
    (now : Millis) (hfresh : FreshFor s request id) (hsame : t.dedupes = s.dedupes)
    (hjobs : t.jobs = s.jobs) : Owned (insertFresh t now request id) := by
  refine h.insert now (t.seq + 1) hfresh (fun key entry he => ?_) fun id' => ?_
  · rw [insertFresh_entry] at he
    split at he
    · rename_i hkey
      obtain ⟨dedupe, _, rfl⟩ := Option.map_eq_some_iff.mp he
      exact .inl ⟨hkey, rfl⟩
    · exact .inr (hsame ▸ he)
  · rw [insertFresh_toCore, putJob_get?, hjobs]
    rfl

theorem setWindow_entry {s : Store V} {key key' : String} {now : Millis} {ttlMs : Option (WithTop Millis)}
    {entry' : DedupeEntry} (h : (setWindow s key now ttlMs).dedupes.get? key' = some entry') :
    ∃ entry, s.dedupes.get? key' = some entry ∧ entry.jobId = entry'.jobId := by
  unfold setWindow at h
  split at h
  · exact ⟨entry', h, rfl⟩
  · rw [JsMap.get?_modify] at h
    split at h
    · rename_i hkey
      obtain ⟨entry, he, rfl⟩ := Option.map_eq_some_iff.mp h
      exact ⟨entry, hkey ▸ he, rfl⟩
    · exact ⟨entry', h, rfl⟩

theorem Owned.enqueueOne {s : Store V} (hk : s.toCore.Keyed) (h : Owned s) {now : Millis}
    {request : EnqueueRequest V} {ids : IdSource}
    (hsafe : enqueueDecision s now request = none → ∀ id, (assignId s request ids).1 = some id →
      FreshFor s request id) : Owned (enqueueOne s now request ids).2 := by
  have hspec := enqueueOne_spec s now request ids
  generalize (Memory.enqueueOne s now request ids).1 = result at hspec
  generalize (Memory.enqueueOne s now request ids).2 = t at hspec ⊢
  cases hspec with
  | duplicate | pending | exhausted => exact h
  | windowed =>
    split
    · refine h.of_sameKey (fun key entry' => setWindow_entry) fun id job hj => ?_
      rw [setWindow_toCore] at hj
      exact ⟨job, hj, rfl, rfl⟩
    · exact h
  | @replaced _ entry keyed _ _ _ hkeyed =>
    refine h.of_sameKey (fun key entry' he => ?_) fun id job hj => ?_
    · rw [signalWake_dedupes] at he
      have hentry := setWindow_entry he
      exact hentry
    · rw [signalWake_toCore, setWindow_toCore, putJob_toCore, putJob_get?] at hj
      split at hj
      · rename_i hid
        cases hj
        have hid : entry.jobId = id := (hk _ _ hkeyed).symm.trans hid.symm
        exact ⟨keyed, hid ▸ hkeyed, rfl, rfl⟩
      · exact ⟨job, hj, rfl, rfl⟩
  | inserted counter _ _ _ _ hdec ha => exact h.insertFresh now (hsafe hdec _ ha) rfl rfl

theorem Owned.exec {s : Store V} (hk : s.toCore.Keyed) (h : Owned s) {now : Millis} {op : Op V}
    (hsafe : KeepsOwners s (now, op)) : Owned (exec s now op) := by
  by_cases hop : op.Opens
  · cases op with
    | enqueue request ids => exact h.enqueueOne hk hsafe.1
    | resumeEnqueue request candidate =>
      show Owned (resumeEnqueue s now request candidate).2
      rcases resumeEnqueue_cases s now request candidate with heq | ⟨hfree, heq⟩
      · rwa [heq]
      · rw [heq]
        exact h.insertFresh now (hsafe hfree) rfl rfl
    | tickSchedule key expectedRunAt nextRunAt request =>
      show Owned (tickSchedule s now key expectedRunAt nextRunAt request).2
      have hentries := tickSchedule_dedupes s now key expectedRunAt nextRunAt request
      rcases tickSchedule_jobs s now key expectedRunAt nextRunAt request with
        hjobs | ⟨id, hid, hfree, hjobs⟩
      · refine h.of_sameKey (fun k entry he => ⟨entry, hentries ▸ he, rfl⟩) fun id job hj => ?_
        rw [hjobs] at hj
        exact ⟨job, hj, rfl, rfl⟩
      · exact h.insert now _ (hsafe id hid hfree) (fun _ _ he => .inr (hentries ▸ he)) hjobs
    | retry id =>
      exact h.of_sameKey (fun key entry he => ⟨entry, retry_dedupes s now id ▸ he, rfl⟩) fun _ _ =>
        exec_sameKey hk now fun _ _ _ hl => by cases hl
    | _ => exact hop.elim
  · refine h.of_sameKey (fun key entry he => ⟨entry, (exec_frees hk now hop).kept key entry he, rfl⟩)
      fun _ _ => exec_sameKey hk now fun _ _ _ hl => ?_
    cases hl <;> exact hop trivial

/-! ## What an enqueue and a cancel by key touch -/

def MemJob.IsFor (job : MemJob V) (name key : String) : Prop :=
  job.name = name ∧ job.dedupeKey = some key

/-- An enqueue and a cancel by key write no job of another name or key, and a dedup hit answers with
no such job's id. A cancel may let retention drop jobs that have ended. -/
def TouchesOwn (s : Store V) : Millis × Op V → Prop
  | (now, .enqueue request ids) =>
    ∀ dedupe, request.dedupe = some dedupe →
      (∀ id job, s.jobs.get? id = some job →
        (exec s now (.enqueue request ids)).jobs.get? id = some job ∨
          job.IsFor request.name dedupe.key) ∧
      ∀ id job, request.id.filter s.jobs.has = none →
        (enqueueOne s now request ids).1 = .ok ⟨id, true⟩ → s.jobs.get? id = some job →
        job.IsFor request.name dedupe.key
  | (now, .cancelByDedupe name key) =>
    ∀ id job, s.jobs.get? id = some job →
      (exec s now (.cancelByDedupe name key)).jobs.get? id = some job ∨ job.IsFor name key ∨
        job.state.isTerminal = true ∧
          (exec s now (.cancelByDedupe name key)).jobs.get? id = none
  | _ => True

theorem Owned.isFor {s : Store V} (h : Owned s) {name key : String} (hal : Unaliased s name key)
    {entry : DedupeEntry} (he : s.dedupes.get? (dedupeMapKey name key) = some entry)
    {job : MemJob V} (hj : s.jobs.get? entry.jobId = some job) : job.IsFor name key := by
  obtain ⟨k, hk, heq⟩ := Option.map_eq_some_iff.mp (h _ _ _ he hj)
  obtain ⟨hname, rfl⟩ := hal _ _ _ hj hk heq
  exact ⟨hname, hk⟩

theorem enqueue_touches {s : Store V} (hk : s.toCore.Keyed) (h : Owned s) (now : Millis)
    {request : EnqueueRequest V} (ids : IdSource)
    (hal : ∀ dedupe, request.dedupe = some dedupe → Unaliased s request.name dedupe.key) :
    TouchesOwn s (now, .enqueue request ids) := by
  intro dedupe hd
  have hspec := enqueueOne_spec s now request ids
  rw [exec]
  generalize (enqueueOne s now request ids).1 = result at hspec ⊢
  generalize (enqueueOne s now request ids).2 = t at hspec ⊢
  have hhit : ∀ entry, s.dedupes.get? (dedupeMapKey request.name dedupe.key) = some entry →
      ∀ job, s.jobs.get? entry.jobId = some job → job.IsFor request.name dedupe.key :=
    fun entry he job hj => h.isFor (hal dedupe hd) he hj
  cases hspec with
  | duplicate _ hid hhas =>
    refine ⟨fun id job hj => .inl hj, fun id job hnone _ _ => ?_⟩
    rw [hid, Option.filter_some, if_pos hhas] at hnone
    cases hnone
  | @replaced _ entry keyed _ hd' he hkeyed =>
    cases hd.symm.trans hd'
    have hid : keyed.id = entry.jobId := hk _ _ hkeyed
    constructor
    · intro id job hj
      rw [signalWake_toCore, setWindow_toCore, putJob_toCore, putJob_get?]
      split
      · rename_i heq
        have heq : id = entry.jobId := heq.trans hid
        exact .inr (hhit entry he job (heq ▸ hj))
      · exact .inl hj
    · intro id job _ hres hj
      cases hres
      exact hhit entry he job (hid ▸ hj)
  | @windowed _ entry _ hd' he =>
    cases hd.symm.trans hd'
    constructor
    · intro id job hj
      split
      · rw [setWindow_toCore]
        exact .inl hj
      · exact .inl hj
    · intro id job _ hres hj
      cases hres
      exact hhit entry he job hj
  | @pending _ entry _ _ hd' he =>
    cases hd.symm.trans hd'
    refine ⟨fun id job hj => .inl hj, fun id job _ hres hj => ?_⟩
    cases hres
    exact hhit entry he job hj
  | @inserted id counter _ hnone =>
    constructor
    · intro id' job hj
      rw [insertFresh_toCore, putJob_get?]
      split
      · rename_i heq
        have heq : id' = id := heq
        rw [heq, hnone] at hj
        cases hj
      · exact .inl hj
    · intro id' job _ hres
      cases hres
  | exhausted => exact ⟨fun id job hj => .inl hj, fun id job _ hres => by cases hres⟩

/-- A cancel changes its job, and retention drops jobs that have ended. -/
theorem cancelJob_other {s : Store V} (hk : s.toCore.Keyed) (now : Millis) {id id' : JobId}
    (hne : id' ≠ id) {job : MemJob V} (hj : s.jobs.get? id' = some job) :
    (cancelJob s now id).2.jobs.get? id' = some job ∨
      job.state.isTerminal = true ∧ (cancelJob s now id).2.jobs.get? id' = none := by
  let P : Label V → Prop := fun l => l = .finish id .cancelled now ∨ l = .move id .requestCancel ∨
    l.IsPrune
  let I : View V → Prop := fun v => v.job = some job ∨ job.state.isTerminal = true ∧ v.job = none
  have hdoes : Does P s.toCore (cancelJob s now id).2.toCore :=
    cancelJob_does hk now id (.inl rfl) (.inr (.inl rfl)) fun _ => .inr (.inr trivial)
  refine hdoes.view hk id' (I := I) (fun l v v' hl hstep _ hv => ?_) (.inl hj)
  cases hstep with
  | same => exact hv
  | prune v ht =>
    rcases hv with hv | ⟨ht', _⟩
    · exact .inr ⟨ht job hv, rfl⟩
    · exact .inr ⟨ht', rfl⟩
  | move | finish | settle =>
    rcases hl with hl | hl | hl
    · cases hl <;> exact absurd rfl hne
    · cases hl <;> exact absurd rfl hne
    · exact hl.elim
  | _ =>
    rcases hl with hl | hl | hl
    · cases hl
    · cases hl
    · exact hl.elim

theorem cancel_touches {s : Store V} (hk : s.toCore.Keyed) (h : Owned s) (now : Millis)
    {name key : String} (hal : Unaliased s name key) :
    TouchesOwn s (now, .cancelByDedupe name key) := by
  intro id job hj
  have hcancel : ∀ entry, s.dedupes.get? (dedupeMapKey name key) = some entry →
      (exec s now (.cancelByDedupe name key)) = (cancelJob s now entry.jobId).2 := by
    intro entry he
    simp only [exec, cancelByDedupe, he]
    split <;> rename_i hc <;> rw [hc]
  cases he : s.dedupes.get? (dedupeMapKey name key) with
  | none =>
    simp only [exec, cancelByDedupe, he]
    exact .inl hj
  | some entry =>
    rw [hcancel entry he]
    by_cases hid : id = entry.jobId
    · exact .inr (.inl (h.isFor hal he (hid ▸ hj)))
    · exact (cancelJob_other hk now hid hj).imp_right .inr

/-- In every run that keeps the entries' ids to their own keys, an enqueue and a cancel by key touch
only jobs of their own name and key. -/
theorem dedupe_touches_own {s : Store V}
    (h : Reachable Initial (fun s e t => Next s e t ∧ KeepsOwners s e) s) {event : Millis × Op V}
    (hsafe : KeepsOwners s event) : TouchesOwn s event := by
  have hinv : s.toCore.Keyed ∧ Owned s := by
    refine h.induct (I := fun s => s.toCore.Keyed ∧ Owned s) ?_ ?_
    · rintro s rfl
      exact ⟨fun _ _ hj => (by cases hj), fun _ _ _ he => (by cases he)⟩
    · rintro s ⟨now, op⟩ t ⟨rfl, hs⟩ ⟨hk, ho⟩
      exact ⟨exec_keyed hk now op, ho.exec hk hs⟩
  obtain ⟨now, op⟩ := event
  cases op with
  | enqueue request ids => exact enqueue_touches hinv.1 hinv.2 now ids hsafe.2
  | cancelByDedupe name key => exact cancel_touches hinv.1 hinv.2 now hsafe
  | _ => trivial

/-! ## An entry that outlives its job -/

def throttled : EnqueueRequest Unit :=
  { EnqueueRequest.plain "x" "sync" "q" () with dedupe := some ⟨"k", some 1000, false, false⟩ }

theorem dedupe_touches_own_throttled :
    TouchesOwn (execs Store.empty [(0, .enqueue throttled .counter)])
      (1, .cancelByDedupe "sync" "k") := by
  have hsafe : KeepsOwners Store.empty (0, .enqueue throttled .counter) :=
    ⟨fun _ _ _ _ _ he => (by cases he), fun _ _ _ _ _ hj => (by cases hj)⟩
  refine dedupe_touches_own ⟨Store.empty, [(0, .enqueue throttled .counter)], rfl,
    .cons ⟨rfl, hsafe⟩ (.refl _)⟩ fun id job k hj hk _ => ?_
  have hget : (insertJobRecord (Store.empty : Store Unit) "x" throttled 0).jobs.get? id = some job := hj
  rw [insertJobRecord_get?] at hget
  split at hget
  · cases hget
    cases hk
    exact ⟨rfl, rfl⟩
  · cases hget

/-- A throttled job is removed inside its window, and its id goes to a job of another name. -/
def staleEntry : List (Millis × Op Unit) :=
  [(0, .enqueue throttled .counter), (1, .remove "x"),
    (2, .enqueue (.plain "x" "charge" "q" ()) .counter)]

/-- A cancel by the throttled key then cancels the other job. -/
theorem staleEntry_cancels_other :
    ¬ ∀ (s : Store Unit) event, Reachable Initial Next s → TouchesOwn s event := by
  intro h
  have htouch := h _ (3, .cancelByDedupe "sync" "k") (reachable_next staleEntry) "x" _ rfl
  rcases htouch with hsame | ⟨hname, _⟩ | ⟨hterm, _⟩
  · cases hsame
  · exact absurd hname (by decide)
  · cases hterm

end EffectMq.Memory
