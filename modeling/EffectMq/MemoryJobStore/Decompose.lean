import Mathlib.Data.List.Induction
import EffectMq.MemoryJobStore.Lifecycle

/-! # Every operation is a chain of elementary steps

`Allows now op l` says that operation `op`, at the clock reading `now`, may take the elementary step
`l`. The main result is `exec_does`: what `exec s now op` does to the jobs, rows and outbox is a
chain of steps that `op` allows. `exec_keyed` is its first use.
-/

namespace EffectMq.Memory
set_option autoImplicit false
set_option maxHeartbeats 250000

open Transition

variable {V : Type}

/-! ## The steps an operation may take -/

/-- The terminal transition an ack may make; a retry ends a job whose cancel is pending. -/
inductive AckEnds : AckOutcome V → Ending V → Prop
  | complete (exit : Option V) : AckEnds (.complete exit) (.complete exit)
  | fail (exit : Option V) : AckEnds (.fail exit) (.fail exit)
  | cancelled : AckEnds .cancelled .ackCancelled
  | retry (delayMs : Millis) (exit : Option V) : AckEnds (.retry delayMs exit) .ackCancelled
  | fanOut (failFast : Bool) (children : List (FlowChildSpec V)) :
      AckEnds (.fanOut failFast children) .cancelled

inductive Allows (now : Millis) : Op V → Label V → Prop
  | enqueue {request : EnqueueRequest V} {ids : IdSource} {id : JobId} (seq : ℕ)
      (h : ∀ i, request.id = some i → i = id) :
      Allows now (.enqueue request ids) (.insert id request now seq)
  | replace (request : EnqueueRequest V) (ids : IdSource) (id : JobId) :
      Allows now (.enqueue request ids) (.move id (.replace request now))
  | resumeEnqueue (request : EnqueueRequest V) (candidate : JobId) (seq : ℕ) :
      Allows now (.resumeEnqueue request candidate) (.insert candidate request now seq)
  | tick {key : ScheduleKey} {expectedRunAt nextRunAt : Millis} {request : EnqueueRequest V}
      {id : JobId} (seq : ℕ) (h : request.id = some id) :
      Allows now (.tickSchedule key expectedRunAt nextRunAt request) (.insert id request now seq)
  | promoteDue (options : ClaimOptions) : Allows now (.claim options) (.promoteDue now)
  | claim (options : ClaimOptions) (id : JobId) :
      Allows now (.claim options) (.move id (.claim options now))
  | ackFinish {id : JobId} {token : String} {outcome : AckOutcome V} {e : Ending V}
      (h : AckEnds outcome e) : Allows now (.ack id token outcome) (.finish id e now)
  | ackRequeue (id : JobId) (token : String) (delayMs : Millis) (exit : Option V) (seq : ℕ) :
      Allows now (.ack id token (.retry delayMs exit)) (.move id (.requeue delayMs exit now seq))
  | ackPark (id : JobId) (token : String) (failFast : Bool) (children : List (FlowChildSpec V)) :
      Allows now (.ack id token (.fanOut failFast children)) (.park id failFast children now)
  | ackResume (id : JobId) (token : String) (failFast : Bool) (children : List (FlowChildSpec V))
      (seq : ℕ) :
      Allows now (.ack id token (.fanOut failFast children)) (.move id (.resume now seq))
  | ackPrune (id : JobId) (token : String) (outcome : AckOutcome V) (victim : JobId) :
      Allows now (.ack id token outcome) (.prune victim)
  | release (id : JobId) (token : String) : Allows now (.release id token) (.move id .release)
  | releaseCancel (id : JobId) (token : String) :
      Allows now (.release id token) (.finish id .cancelled now)
  | releasePrune (id : JobId) (token : String) (victim : JobId) :
      Allows now (.release id token) (.prune victim)
  | extend {locks : List Lock} (durationMs : Millis) (id : JobId) :
      Allows now (.extendLocks locks durationMs) (.move id (.extend (now + durationMs)))
  | stall (maxStalledCount : ℤ) (id : JobId) :
      Allows now (.recoverStalled maxStalledCount) (.move id (.stall now))
  | stallFail (maxStalledCount : ℤ) (id : JobId) :
      Allows now (.recoverStalled maxStalledCount) (.finish id .stalled now)
  | stallCancel (maxStalledCount : ℤ) (id : JobId) :
      Allows now (.recoverStalled maxStalledCount) (.finish id .cancelled now)
  | stallPrune (maxStalledCount : ℤ) (victim : JobId) :
      Allows now (.recoverStalled maxStalledCount) (.prune victim)
  | retry (id : JobId) (seq : ℕ) : Allows now (.retry id) (.move id (.retry now seq))
  | cancel (id : JobId) : Allows now (.cancel id) (.finish id .cancelled now)
  | cancelActive (id : JobId) : Allows now (.cancel id) (.move id .requestCancel)
  | cancelPrune (id victim : JobId) : Allows now (.cancel id) (.prune victim)
  | cancelKeyed (name key : String) (id : JobId) :
      Allows now (.cancelByDedupe name key) (.finish id .cancelled now)
  | cancelKeyedActive (name key : String) (id : JobId) :
      Allows now (.cancelByDedupe name key) (.move id .requestCancel)
  | cancelKeyedPrune (name key : String) (victim : JobId) :
      Allows now (.cancelByDedupe name key) (.prune victim)
  | promote (id : JobId) : Allows now (.promote id) (.move id (.promoteNow now))
  | report {reports : List (FlowChildReport V)} {report : FlowChildReport V}
      (h : report ∈ reports) : Allows now (.recordChildResults reports) (.report report)
  | failFast (reports : List (FlowChildReport V)) (id : JobId) (childKey : String) :
      Allows now (.recordChildResults reports) (.finish id (.failFast childKey) now)
  | settle (reports : List (FlowChildReport V)) (id : JobId) (seq : ℕ) :
      Allows now (.recordChildResults reports) (.move id (.resume now seq))
  | settlePrune (reports : List (FlowChildReport V)) (victim : JobId) :
      Allows now (.recordChildResults reports) (.prune victim)
  | deleteOutbox (ids : List ℕ) : Allows now (.deleteOutbox ids) (.dropOutbox ids)
  | rearm (options : FlowSweepOptions) (flowId : JobId) (childKey : String) :
      Allows now (.flowSweepWork options) (.rearm flowId childKey now)
  | cascade {flowId : JobId} {childKeys : List String} {childKey : String}
      (h : childKey ∈ childKeys) :
      Allows now (.markChildrenCascaded flowId childKeys) (.cascade flowId childKey)
  | remove (id : JobId) : Allows now (.remove id) (.remove id)
  | sweep (ttlByState : HistoryTtlByState) (victim : JobId) :
      Allows now (.sweepHistory ttlByState) (.prune victim)

/-! ## What the helpers leave alone -/

@[simp] theorem signalWake_toCore (s : Store V) (queue : Option QueueName) :
    (signalWake s queue).toCore = s.toCore := by
  cases queue <;> rfl

@[simp] theorem releaseDedupe_toCore (s : Store V) (job : MemJob V) (now : Millis) :
    (releaseDedupe s job now).toCore = s.toCore := by
  unfold releaseDedupe
  split
  · rfl
  · simp only
    split
    · rfl
    · split <;> rfl

@[simp] theorem setWindow_toCore (s : Store V) (key : String) (now : Millis)
    (ttlMs : Option (WithTop Millis)) : (setWindow s key now ttlMs).toCore = s.toCore := by
  unfold setWindow
  split <;> rfl

@[simp] theorem putJob_toCore (s : Store V) (job : MemJob V) :
    (s.putJob job).toCore = s.toCore.putJob job := rfl

@[simp] theorem terminate_toCore (s : Store V) (job : MemJob V) (outcome : TerminalState)
    (now : Millis) :
    (s.terminate job outcome now).toCore =
      ((s.toCore.putJob job).appendOutbox job outcome).applyKeep job now := by
  simp [Store.terminate]

@[simp] theorem makeRunnable_toCore (s : Store V) (job : MemJob V) (now : Millis) :
    (makeRunnable s job now).toCore =
      s.toCore.putJob { job with state := .waiting, runAt := now, seq := s.seq + 1 } := by
  simp [makeRunnable]

theorem mem_values_get? {c : Core V} (hk : c.Keyed) {job : MemJob V} (h : job ∈ c.jobs.values) :
    c.jobs.get? job.id = some job := by
  obtain ⟨id, hj⟩ := JsMap.mem_values.mp h
  rwa [hk id job hj]

/-! ## Pruning -/

def Label.IsPrune : Label V → Prop
  | .prune _ => True
  | _ => False

theorem Does.of_prunes {P : Label V → Prop} (hprune : ∀ id, P (.prune id)) {c c' : Core V}
    (h : Does Label.IsPrune c c') : Does P c c' := by
  refine h.mono fun l hl => ?_
  cases l with
  | prune id => exact hprune id
  | _ => exact hl.elim

/-- Pruning keeps at every id what holds of an unknown one. -/
theorem prunes_view {c d : Core V} (hk : c.Keyed) (h : Does Label.IsPrune c d) {id : JobId}
    {I : View V → Prop} (hnone : I ⟨none, none⟩) (hI : I (c.view id)) : I (d.view id) := by
  refine h.view hk id (fun l v v' hl hstep _ hv => ?_) hI
  cases hstep with
  | same => exact hv
  | prune => exact hnone
  | _ => exact hl.elim

theorem deleteUnowed_does {c : Core V} {ids : List JobId}
    (h : ∀ id ∈ ids, ∀ job, c.jobs.get? id = some job → job.state.isTerminal) :
    Does Label.IsPrune c (c.deleteUnowed ids) := by
  induction ids generalizing c with
  | nil => exact .refl _ _
  | cons id ids ih =>
    rw [Core.deleteUnowed, List.foldl_cons]
    split
    · exact ih fun i hi => h i (by simp [hi])
    · rename_i ho
      have hstep : Step c (.prune id) (c.deleteJob id) :=
        .prune (h id (by simp)) (by simpa using ho)
      refine (Does.single hstep trivial).trans (ih ?_)
      intro i hi job hj
      rw [Core.deleteJob, JsMap.get?_delete] at hj
      split at hj
      · cases hj
      · exact h i (by simp [hi]) job hj

theorem sliceFrom_suffix {α : Type} (count : JsNumber) (xs : List α) : sliceFrom count xs <:+ xs := by
  cases count with
  | finite q => exact List.drop_suffix _ _
  | posInf => exact List.nil_suffix
  | negInf | nan => exact List.suffix_rfl

theorem mem_keepVictims {policy : KeepStatePolicy} {peers : List (MemJob V)} {now : Millis}
    {id : JobId} (h : id ∈ keepVictims policy peers now) : ∃ peer ∈ peers, peer.id = id := by
  unfold keepVictims at h
  simp only [List.mem_append] at h
  rcases h with h | h
  · split at h
    · cases h
    · obtain ⟨peer, hp, rfl⟩ := List.mem_map.mp h
      exact ⟨peer, (List.mem_filter.mp hp).1, rfl⟩
  · split at h
    · cases h
    · obtain ⟨peer, hp, rfl⟩ := List.mem_map.mp h
      exact ⟨peer, (sliceFrom_suffix _ _).mem hp, rfl⟩

theorem applyKeep_does {c : Core V} (hk : c.Keyed) {job : MemJob V} (now : Millis)
    (ht : job.state.isTerminal = true) : Does Label.IsPrune c (c.applyKeep job now) := by
  unfold Core.applyKeep
  split
  · exact .refl _ _
  · refine deleteUnowed_does ?_
    intro id hid j hj
    obtain ⟨peer, hp, rfl⟩ := mem_keepVictims hid
    rw [List.mem_insertionSort, List.mem_filter] at hp
    have hget := mem_values_get? hk hp.1
    rw [hget] at hj
    obtain rfl := Option.some.inj hj
    have hst : peer.name = job.name ∧ peer.state = job.state := by simpa using hp.2
    rw [hst.2]
    exact ht

/-! ## Terminal transitions -/

/-- A terminal transition of one job, and the retention it sets off. -/
def Core.Finishes (c : Core V) (id : JobId) (e : Ending V) (now : Millis) (c' : Core V) : Prop :=
  ∃ d, Step c (.finish id e now) d ∧ Does Label.IsPrune d c'

theorem Core.Finishes.does {c c' : Core V} {id : JobId} {e : Ending V} {now : Millis}
    {P : Label V → Prop} (h : c.Finishes id e now c') (hP : P (.finish id e now))
    (hprune : ∀ id, P (.prune id)) : Does P c c' := by
  obtain ⟨d, hstep, hprunes⟩ := h
  exact (Does.single hstep hP).trans (hprunes.of_prunes hprune)

/-- What holds of an unknown id and of the record in its terminal state holds of the job after it. -/
theorem Core.Finishes.view {c c' : Core V} {id : JobId} {e : Ending V} {now : Millis}
    (h : c.Finishes id e now c') (hk : c.Keyed) {I : View V → Prop} (hnone : I ⟨none, none⟩)
    (hend : ∀ job flow rows?, c.jobs.get? id = some job → e.Enabled job →
      I ⟨some (endJob { job with flow := flow } now e), rows?⟩) : I (c'.view id) := by
  obtain ⟨d, hstep, hprunes⟩ := h
  refine prunes_view (hstep.keyed hk) hprunes hnone ?_
  cases hstep with
  | @finish _ job _ _ hj he =>
    rw [finish_view, if_pos (hk _ _ hj).symm]
    exact hend job _ _ hj he

theorem Step.move_view {c c' : Core V} {id : JobId} {m : Move V} (h : Step c (.move id m) c')
    (hk : c.Keyed) :
    ∃ job, c.jobs.get? id = some job ∧ m.Enabled job ∧
      c'.view id = ⟨some (m.apply job), c.flowChildren.get? id⟩ := by
  cases h with
  | @move _ job _ hj hm =>
    refine ⟨job, hj, hm, ?_⟩
    rw [putJob_view, Move.apply_id, if_pos (hk _ _ hj).symm]

/-- The record that a move leaves. -/
theorem Step.move_eq {c c' : Core V} {id : JobId} {m : Move V} (h : Step c (.move id m) c')
    (hk : c.Keyed) {job job' : MemJob V} (hj : c.jobs.get? id = some job)
    (hj' : c'.jobs.get? id = some job') : job' = m.apply job := by
  obtain ⟨mid, hmid, -, hview⟩ := h.move_view hk
  cases hj.symm.trans hmid
  exact Option.some.inj (hj'.symm.trans (congrArg View.job hview))

theorem finish_finishes {c c' : Core V} (hk : c.Keyed) (job : MemJob V) {last : MemJob V}
    (e : Ending V) {now : Millis} (hj : c.jobs.get? job.id = some job) (he : e.Enabled job)
    (hlast : last.state.isTerminal = true) (hc : c' = (c.finish job e now).applyKeep last now) :
    c.Finishes job.id e now c' := by
  subst hc
  have hstep : Step c (.finish job.id e now) (c.finish job e now) := .finish e now hj he
  exact ⟨_, hstep, applyKeep_does (hstep.keyed hk) now hlast⟩

theorem markCancelled_toCore (s : Store V) (job : MemJob V) (now : Millis) :
    (markCancelled s job now).toCore =
      (s.toCore.finish job .cancelled now).applyKeep
        (endJob { job with flow := s.toCore.settledFlow? job } now .cancelled) now := by
  simp only [markCancelled, settleIfParked_eq, terminate_toCore]
  rw [finish_eq]
  rfl

theorem markCancelled_finishes {s : Store V} (hk : s.toCore.Keyed) {job : MemJob V} (now : Millis)
    (hj : s.jobs.get? job.id = some job) (ht : job.state.isTerminal = false) :
    s.toCore.Finishes job.id .cancelled now (markCancelled s job now).toCore :=
  finish_finishes hk job .cancelled hj ht (by rw [endJob_state, isTerminal_toJobState])
    (markCancelled_toCore s job now)

theorem finish_eq_of_not_parked {c : Core V} {job : MemJob V} (e : Ending V) (now : Millis)
    (h : job.state ≠ .waitingChildren) :
    c.finish job e now =
      (c.putJob (endJob job now e)).appendOutbox (endJob job now e) e.outcome := by
  rw [finish_eq, Core.settledRows, Core.settledFlow?, if_neg h, if_neg h]

theorem markCancelled_toCore_of_not_parked (s : Store V) (job : MemJob V) (now : Millis)
    (h : job.state ≠ .waitingChildren) :
    (markCancelled s job now).toCore =
      ((s.toCore.putJob (endJob job now .cancelled)).appendOutbox (endJob job now .cancelled)
        .cancelled).applyKeep (endJob job now .cancelled) now := by
  rw [markCancelled_toCore, finish_eq_of_not_parked _ _ h, Core.settledFlow?, if_neg h]
  rfl

/-! ## Enqueue -/

theorem nextCounterId_free {jobs : JsMap JobId (MemJob V)} {tries counter : ℕ} {id : JobId}
    {counter' : ℕ} (h : nextCounterId jobs tries counter = some (id, counter')) :
    jobs.get? id = none := by
  induction tries generalizing counter with
  | zero => cases h
  | succ tries ih =>
    rw [nextCounterId] at h
    split at h
    · exact ih h
    · rename_i hfree
      cases h
      exact JsMap.has_eq_false.mp (by simpa using hfree)

theorem assignId_free {s s' : Store V} {request : EnqueueRequest V} {ids : IdSource} {id : JobId}
    (hdec : ∀ i, request.id = some i → s.jobs.has i = false)
    (h : assignId s request ids = (some id, s')) :
    s'.toCore = s.toCore ∧ s.jobs.get? id = none ∧ ∀ i, request.id = some i → i = id := by
  unfold assignId at h
  split at h
  · rename_i i hi
    cases h
    exact ⟨rfl, JsMap.has_eq_false.mp (hdec _ hi), fun j hj => by rw [hi] at hj; exact (Option.some.inj hj).symm⟩
  · rename_i hi
    split at h
    · rename_i hc
      cases h
      exact ⟨rfl, nextCounterId_free hc, fun j hj => by rw [hi] at hj; cases hj⟩
    · cases h
  · rename_i hi
    simp only [Prod.mk.injEq] at h
    obtain ⟨hf, rfl⟩ := h
    exact ⟨rfl, JsMap.has_eq_false.mp (by simpa using List.find?_some hf),
      fun j hj => by rw [hi] at hj; cases hj⟩

theorem insertJobRecord_toCore (s : Store V) (id : JobId) (request : EnqueueRequest V)
    (now : Millis) :
    (insertJobRecord s id request now).toCore =
      s.toCore.putJob (newJob id request now (s.seq + 1)) := by
  simp [insertJobRecord]

theorem insertFresh_toCore (s : Store V) (now : Millis) (request : EnqueueRequest V) (id : JobId) :
    (insertFresh s now request id).toCore =
      s.toCore.putJob (newJob id request now (s.seq + 1)) := by
  unfold insertFresh
  simp only
  split <;> rw [insertJobRecord_toCore]

theorem dedupeDecision_does {s s' : Store V} {now : Millis} {request : EnqueueRequest V}
    {dedupe : DedupePolicy} {result : EnqueueResult} (ids : IdSource)
    (h : dedupeDecision s now request dedupe = some (result, s')) :
    Does (Allows now (.enqueue request ids)) s.toCore s'.toCore := by
  unfold dedupeDecision at h
  simp only at h
  split at h
  · cases h
  · split at h
    · rename_i entry _ _ keyed hkeyed
      rw [Option.filter_eq_some_iff] at hkeyed
      obtain ⟨hj, hp⟩ := hkeyed
      cases h
      simp only [signalWake_toCore, setWindow_toCore, putJob_toCore]
      refine .single (.move (.replace request now) hj ?_) (.replace request ids entry.jobId)
      show keyed.state = .delayed
      simpa using (Bool.and_eq_true_iff.mp hp).2
    · split at h
      · cases h
        split
        · rw [setWindow_toCore]
          exact .refl _ _
        · exact .refl _ _
      · split at h
        · cases h
          exact .refl _ _
        · cases h

theorem enqueueOne_does (s : Store V) (now : Millis) (request : EnqueueRequest V)
    (ids : IdSource) :
    Does (Allows now (.enqueue request ids)) s.toCore (enqueueOne s now request ids).2.toCore := by
  unfold enqueueOne
  split
  · rename_i result s' hdec
    unfold enqueueDecision at hdec
    split at hdec
    · cases hdec
      exact .refl _ _
    · obtain ⟨dedupe, _, hd⟩ := Option.bind_eq_some_iff.mp hdec
      exact dedupeDecision_does ids hd
  · rename_i hdec
    have hfree : ∀ i, request.id = some i → s.jobs.has i = false := by
      intro i hi
      unfold enqueueDecision at hdec
      split at hdec
      · cases hdec
      · rename_i hn
        rw [hi, Option.filter_some] at hn
        by_contra hc
        rw [Bool.not_eq_false] at hc
        rw [if_pos hc] at hn
        cases hn
    split
    · rename_i id s' ha
      obtain ⟨hc, hnone, hid⟩ := assignId_free hfree ha
      simp only [insertFresh_toCore, hc]
      exact .single (.insert request now (s'.seq + 1) hnone) (.enqueue (s'.seq + 1) hid)
    · rename_i s' ha
      have hc : s'.toCore = s.toCore := by
        unfold assignId at ha
        split at ha
        · cases ha
        · split at ha <;> cases ha
          rfl
        · exact (Prod.mk.inj ha).2 ▸ rfl
      rw [hc]
      exact .refl _ _

theorem resumeEnqueue_does (s : Store V) (now : Millis) (request : EnqueueRequest V)
    (candidate : JobId) :
    Does (Allows now (.resumeEnqueue request candidate)) s.toCore
      (resumeEnqueue s now request candidate).2.toCore := by
  unfold resumeEnqueue
  split
  · exact .refl _ _
  · rename_i h
    simp only [insertFresh_toCore]
    exact .single (.insert request now (s.seq + 1) (JsMap.has_eq_false.mp (by simpa using h)))
      (.resumeEnqueue request candidate (s.seq + 1))

theorem tickSchedule_does (s : Store V) (now : Millis) (key : ScheduleKey)
    (expectedRunAt nextRunAt : Millis) (request : EnqueueRequest V) :
    Does (Allows now (.tickSchedule key expectedRunAt nextRunAt request)) s.toCore
      (tickSchedule s now key expectedRunAt nextRunAt request).2.toCore := by
  unfold tickSchedule
  split
  · exact .refl _ _
  · rename_i id hid
    split
    · exact .refl _ _
    · split
      · exact .refl _ _
      · simp only
        split
        · exact .refl _ _
        · rename_i h
          simp only [insertJobRecord_toCore]
          exact .single (.insert request now (s.seq + 1)
            (JsMap.has_eq_false.mp (by simpa using h))) (.tick (s.seq + 1) hid)

/-! ## Claim -/

def MemJob.Wanted (options : ClaimOptions) (job : MemJob V) : Prop :=
  job.queue = options.queue ∧ job.name ∈ options.names

/-- Handed out at the latest when `other` is: a higher priority, or the earlier of the same. -/
def MemJob.Ahead (job other : MemJob V) : Prop :=
  other.priority < job.priority ∨ other.priority = job.priority ∧ job.seq ≤ other.seq

/-- What the scan of a claim has found among the jobs it has met. -/
structure Scanned (options : ClaimOptions) (jobs : List (MemJob V)) (scan : ClaimScan V) : Prop where
  best : ∀ best, scan.best = some best → best ∈ jobs ∧ best.Wanted options ∧ best.state = .waiting
  ahead : ∀ job ∈ jobs, job.Wanted options → job.state = .waiting →
    ∃ best, scan.best = some best ∧ best.Ahead job
  next : ∀ t, scan.nextRunAt = some t →
    ∃ job ∈ jobs, job.Wanted options ∧ job.state = .delayed ∧ job.runAt = t
  soonest : ∀ job ∈ jobs, job.Wanted options → job.state = .delayed →
    ∃ t, scan.nextRunAt = some t ∧ t ≤ job.runAt

theorem MemJob.Ahead.refl (job : MemJob V) : job.Ahead job := .inr ⟨rfl, le_rfl⟩

theorem MemJob.Ahead.trans {a b c : MemJob V} (h : a.Ahead b) (h' : b.Ahead c) : a.Ahead c := by
  unfold MemJob.Ahead at h h' ⊢
  omega

/-- A job that takes the lead is ahead of the one that had it. -/
theorem beats_ahead {job best : MemJob V} (h : beats job (some best) = true) : job.Ahead best := by
  have hlt := of_decide_eq_true h
  unfold MemJob.Ahead
  omega

theorem not_beats_ahead {job best : MemJob V} (h : ¬ beats job (some best) = true) :
    best.Ahead job := by
  have hlt : ¬ (best.priority < job.priority ∨ job.priority = best.priority ∧ job.seq < best.seq) :=
    fun hlt => h (decide_eq_true hlt)
  unfold MemJob.Ahead
  omega

theorem Scanned.skip {options : ClaimOptions} {jobs : List (MemJob V)} {scan : ClaimScan V}
    (h : Scanned options jobs scan) {job : MemJob V}
    (hskip : job.Wanted options → job.state ≠ .waiting ∧ job.state ≠ .delayed) :
    Scanned options (jobs ++ [job]) scan := by
  refine ⟨fun best hb => ?_, fun j hj hw hst => ?_, fun t ht => ?_, fun j hj hw hst => ?_⟩
  · obtain ⟨hmem, hrest⟩ := h.best best hb
    exact ⟨by simp [hmem], hrest⟩
  · rcases List.mem_append.mp hj with hj | hj
    · exact h.ahead j hj hw hst
    · obtain rfl := List.mem_singleton.mp hj
      exact absurd hst (hskip hw).1
  · obtain ⟨j, hj, hrest⟩ := h.next t ht
    exact ⟨j, by simp [hj], hrest⟩
  · rcases List.mem_append.mp hj with hj | hj
    · exact h.soonest j hj hw hst
    · obtain rfl := List.mem_singleton.mp hj
      exact absurd hst (hskip hw).2

/-- A waiting job is met: the lead is its, or stays where it is. -/
theorem Scanned.meetWaiting {options : ClaimOptions} {jobs : List (MemJob V)} {scan : ClaimScan V}
    (h : Scanned options jobs scan) {job : MemJob V} (hw : job.Wanted options)
    (hst : job.state = .waiting) :
    Scanned options (jobs ++ [job])
      (if beats job scan.best then { scan with best := some job } else scan) := by
  have hnext : ∀ t, scan.nextRunAt = some t →
      ∃ j ∈ jobs ++ [job], j.Wanted options ∧ j.state = .delayed ∧ j.runAt = t := by
    intro t ht
    obtain ⟨j, hj, hrest⟩ := h.next t ht
    exact ⟨j, by simp [hj], hrest⟩
  have hsoonest : ∀ j ∈ jobs ++ [job], j.Wanted options → j.state = .delayed →
      ∃ t, scan.nextRunAt = some t ∧ t ≤ j.runAt := by
    intro j hj hwj hstj
    rcases List.mem_append.mp hj with hj | hj
    · exact h.soonest j hj hwj hstj
    · obtain rfl := List.mem_singleton.mp hj
      rw [hst] at hstj
      cases hstj
  split
  · rename_i hbeats
    refine ⟨fun best hb => ?_, fun j hj hwj hstj => ⟨job, rfl, ?_⟩, hnext, hsoonest⟩
    · cases hb
      exact ⟨by simp, hw, hst⟩
    · rcases List.mem_append.mp hj with hj | hj
      · obtain ⟨best, hb, hahead⟩ := h.ahead j hj hwj hstj
        rw [hb] at hbeats
        exact (beats_ahead hbeats).trans hahead
      · obtain rfl := List.mem_singleton.mp hj
        exact .refl j
  · rename_i hbeats
    refine ⟨fun best hb => ?_, fun j hj hwj hstj => ?_, hnext, hsoonest⟩
    · obtain ⟨hmem, hrest⟩ := h.best best hb
      exact ⟨by simp [hmem], hrest⟩
    · rcases List.mem_append.mp hj with hj | hj
      · exact h.ahead j hj hwj hstj
      · obtain rfl := List.mem_singleton.mp hj
        cases hb : scan.best with
        | none =>
          rw [hb] at hbeats
          exact absurd rfl hbeats
        | some best =>
          rw [hb] at hbeats
          exact ⟨best, rfl, not_beats_ahead hbeats⟩

/-- A delayed job is met: the next due time is its, or an earlier one. -/
theorem Scanned.meetDelayed {options : ClaimOptions} {jobs : List (MemJob V)} {scan : ClaimScan V}
    (h : Scanned options jobs scan) {job : MemJob V} (hw : job.Wanted options)
    (hst : job.state = .delayed) {t : Millis}
    (hle : t ≤ job.runAt ∧ ∀ t', scan.nextRunAt = some t' → t ≤ t')
    (hfrom : t = job.runAt ∨ scan.nextRunAt = some t) :
    Scanned options (jobs ++ [job]) { scan with nextRunAt := some t } := by
  refine ⟨fun best hb => ?_, fun j hj hwj hstj => ?_, fun t' ht => ?_, fun j hj hwj hstj => ?_⟩
  · obtain ⟨hmem, hrest⟩ := h.best best hb
    exact ⟨by simp [hmem], hrest⟩
  · rcases List.mem_append.mp hj with hj | hj
    · exact h.ahead j hj hwj hstj
    · obtain rfl := List.mem_singleton.mp hj
      rw [hst] at hstj
      cases hstj
  · cases ht
    rcases hfrom with heq | hold
    · exact ⟨job, by simp, hw, hst, heq.symm⟩
    · obtain ⟨j, hj, hrest⟩ := h.next t hold
      exact ⟨j, by simp [hj], hrest⟩
  · refine ⟨t, rfl, ?_⟩
    rcases List.mem_append.mp hj with hj | hj
    · obtain ⟨t', ht', htle⟩ := h.soonest j hj hwj hstj
      exact (hle.2 t' ht').trans htle
    · obtain rfl := List.mem_singleton.mp hj
      exact hle.1

theorem Scanned.step {options : ClaimOptions} {jobs : List (MemJob V)} {scan : ClaimScan V}
    (h : Scanned options jobs scan) (job : MemJob V) :
    Scanned options (jobs ++ [job]) (claimScan options scan job) := by
  unfold claimScan
  split
  · rename_i hother
    refine h.skip fun hw => absurd hother ?_
    simp [hw.1, hw.2]
  · rename_i hwanted
    have hw : job.Wanted options := by simpa [MemJob.Wanted] using hwanted
    split
    · rename_i hst
      exact h.meetWaiting hw hst
    · rename_i hst
      split
      · rename_i hnone
        refine h.meetDelayed hw hst ⟨le_rfl, fun t ht => ?_⟩ (.inl rfl)
        rw [hnone] at ht
        cases ht
      · rename_i t ht
        split
        · rename_i hlt
          refine h.meetDelayed hw hst ⟨le_rfl, fun t' ht' => ?_⟩ (.inl rfl)
          rw [ht] at ht'
          cases ht'
          exact hlt.le
        · rename_i hle
          have hkeep := h.meetDelayed hw hst (t := t) ⟨not_lt.mp hle, fun t' ht' => ?_⟩ (.inr ht)
          · rw [← ht] at hkeep
            exact hkeep
          · rw [ht] at ht'
            cases ht'
            exact le_rfl
    · rename_i hnw hnd
      exact h.skip fun _ => ⟨hnw, hnd⟩

theorem scanned (options : ClaimOptions) (jobs : List (MemJob V)) :
    Scanned options jobs (jobs.foldl (claimScan options) ⟨none, none⟩) := by
  induction jobs using List.reverseRecOn with
  | nil => exact ⟨by simp, by simp, by simp, by simp⟩
  | append_singleton jobs job ih =>
    rw [List.foldl_append, List.foldl_cons, List.foldl_nil]
    exact ih.step job

theorem claim_does {s : Store V} (hk : s.toCore.Keyed) (now : Millis) (options : ClaimOptions) :
    Does (Allows now (.claim options)) s.toCore (claim s now options).2.toCore := by
  have hstep : Step s.toCore (.promoteDue now) (promoteDue s now).toCore := .promoteDue now
  have hdue : Does (Allows now (.claim options)) s.toCore (promoteDue s now).toCore :=
    .single hstep (.promoteDue options)
  unfold claim
  simp only
  split
  · rename_i best hbest
    split
    · exact hdue
    · obtain ⟨hmem, _, hst⟩ := (scanned options (promoteDue s now).jobs.values).best best hbest
      have hget := mem_values_get? (hstep.keyed hk) hmem
      exact hdue.trans (.single (.move (.claim options now) hget hst) (.claim options best.id))
  · exact hdue

/-! ## Ack -/

theorem putJob_putJob (c : Core V) {a b : MemJob V} (h : a.id = b.id) :
    (c.putJob a).putJob b = c.putJob b := by
  unfold Core.putJob
  simp only [h, JsMap.set_set]

theorem putJob_markPendingRowsCancelled (c : Core V) (job : MemJob V) (id : JobId) :
    (c.putJob job).markPendingRowsCancelled id =
      ((c.markPendingRowsCancelled id).1.putJob job, (c.markPendingRowsCancelled id).2) := by
  unfold Core.markPendingRowsCancelled
  rw [putJob_flowChildren]
  split <;> rfl

theorem openManifest_eq (s : Store V) (now : Millis) (job : MemJob V) (failFast : Bool)
    (children : List (FlowChildSpec V)) :
    openManifest s now job failFast children =
      ({ s with toCore := s.toCore.fanOutRows job children now },
        manifest job failFast children) := by
  unfold openManifest Core.fanOutRows manifest
  cases job.flow <;> rfl

/-- The parent between the creation of its rows and the branch on its pending cancel. -/
def fannedOut (job : MemJob V) (now : Millis) (flow : FlowState) : MemJob V :=
  { recordAttempt (clearLock job) .fannedOut now none with flow := some flow }

theorem parkJob_eq {job : MemJob V} (now : Millis) (flow : FlowState)
    (h : job.cancelRequested = false) :
    parkJob job now flow = { fannedOut job now flow with state := .waitingChildren } := by
  simp only [parkJob, fannedOut, recordAttempt, clearLock, h]

theorem parked_settledRows (c : Core V) (job : MemJob V) (h : job.state = .waitingChildren) :
    (c.putJob job).settledRows job = (c.markPendingRowsCancelled job.id).1.putJob job := by
  rw [Core.settledRows, if_pos h, putJob_markPendingRowsCancelled]

theorem parked_settledFlow? (c : Core V) (job : MemJob V) (h : job.state = .waitingChildren) :
    (c.putJob job).settledFlow? job =
      job.flow.map fun flow => settledFlow flow (pendingRows (c.flowChildren.get? job.id)) := by
  rw [Core.settledFlow?, if_pos h, putJob_flowChildren]

/-- A cancel that raced the fan-out leaves what parking first and cancelling then would. -/
theorem cancelFannedOut_toCore (s : Store V) (job : MemJob V) (now : Millis) (flow : FlowState)
    (ha : job.state = .active) :
    ∃ last : MemJob V, last.state.isTerminal = true ∧
      (markCancelled { s with toCore := (s.toCore.settleMarkRows (fannedOut job now flow)).1 }
          (s.toCore.settleMarkRows (fannedOut job now flow)).2 now).toCore =
        ((s.toCore.putJob (parkJob job now flow)).finish (parkJob job now flow) .cancelled
          now).applyKeep last now := by
  rw [markCancelled_toCore, settleMarkRows_eq, finish_eq_of_not_parked _ _ (by
    show job.state ≠ .waitingChildren
    rw [ha]
    decide), finish_eq, parked_settledRows _ _ rfl, parked_settledFlow? _ _ rfl,
    putJob_putJob _ (by rw [endJob_id])]
  exact ⟨_, by rw [endJob_state, isTerminal_toJobState], rfl⟩

/-- A fan-out parks its parent. A pending cancel then ends it, and a manifest with nothing pending
makes it runnable again. -/
theorem ackFanOut_cases {s : Store V} (hk : s.toCore.Keyed) {job : MemJob V} (now : Millis)
    (failFast : Bool) (children : List (FlowChildSpec V)) (hj : s.jobs.get? job.id = some job)
    (ha : job.state = .active) :
    (job.cancelRequested = true ∧
      (s.toCore.park job failFast children now).Finishes job.id .cancelled now
        (ackFanOut s now (clearLock job) failFast children).toCore) ∨
    (job.cancelRequested = false ∧
      ∃ seq, Step (s.toCore.park job failFast children now) (.move job.id (.resume now seq))
        (ackFanOut s now (clearLock job) failFast children).toCore) ∨
    (job.cancelRequested = false ∧ 0 < (manifest job failFast children).pending ∧
      (ackFanOut s now (clearLock job) failFast children).toCore =
        s.toCore.park job failFast children now) := by
  have hpark : Step s.toCore (.park job.id failFast children now)
      (s.toCore.park job failFast children now) := .park failFast children now hj ha
  have hget : (s.toCore.park job failFast children now).jobs.get? job.id =
      some (parkJob job now (manifest job failFast children)) := by
    rw [park_get?, if_pos rfl]
  unfold ackFanOut
  simp only [openManifest_eq]
  split
  · rename_i hcancel
    obtain ⟨last, hlast, h⟩ := cancelFannedOut_toCore
      { s with toCore := s.toCore.fanOutRows job children now } job now
      (manifest job failFast children) ha
    have hfin : Step (s.toCore.park job failFast children now) (.finish job.id .cancelled now) _ :=
      .finish .cancelled now hget rfl
    exact .inl ⟨hcancel, _, hfin, h ▸ applyKeep_does (hfin.keyed (hpark.keyed hk)) now hlast⟩
  · rename_i hcancel
    have hcancel : job.cancelRequested = false := Bool.eq_false_iff.mpr hcancel
    split
    · rename_i hpending
      refine .inr (.inr ⟨hcancel, hpending, ?_⟩)
      rw [Core.park, parkJob_eq now _ hcancel]
      rfl
    · rename_i hpending
      have hmove : Step _ (.move job.id (.resume now (s.seq + 1))) _ :=
        .move (.resume now (s.seq + 1)) hget ⟨rfl, _, rfl, Nat.eq_zero_of_not_pos hpending⟩
      have heq : (s.toCore.park job failFast children now).putJob
          ((Move.resume now (s.seq + 1)).apply
            (parkJob job now (manifest job failFast children))) =
          (s.toCore.fanOutRows job children now).putJob
            { fannedOut job now (manifest job failFast children) with
              state := .waiting, runAt := now, seq := s.seq + 1 } := by
        rw [Core.park, putJob_putJob _ (Move.apply_id ..).symm, parkJob_eq now _ hcancel]
        rfl
      rw [heq] at hmove
      rw [makeRunnable_toCore]
      exact .inr (.inl ⟨hcancel, _, hmove⟩)

theorem ackFanOut_does {s : Store V} (hk : s.toCore.Keyed) {job : MemJob V} (now : Millis)
    (token : String) (failFast : Bool) (children : List (FlowChildSpec V))
    (hj : s.jobs.get? job.id = some job) (ha : job.state = .active) :
    Does (Allows now (.ack job.id token (.fanOut failFast children))) s.toCore
      (ackFanOut s now (clearLock job) failFast children).toCore := by
  have hpark : Does (Allows now (.ack job.id token (.fanOut failFast children))) s.toCore
      (s.toCore.park job failFast children now) :=
    .single (.park failFast children now hj ha) (.ackPark ..)
  rcases ackFanOut_cases hk now failFast children hj ha with ⟨_, hfin⟩ | ⟨_, seq, hmove⟩ |
    ⟨_, _, heq⟩
  · exact hpark.trans (hfin.does (.ackFinish (.fanOut ..)) fun _ => .ackPrune ..)
  · exact hpark.trans (.single hmove (.ackResume ..))
  · rwa [heq]

/-- Any other outcome ends the job, or is a retry that puts it back. -/
theorem ackOutcome_cases {s : Store V} (hk : s.toCore.Keyed) {job : MemJob V} (now : Millis)
    (outcome : AckOutcome V) (hj : s.jobs.get? job.id = some job) (ha : job.state = .active) :
    (∃ e, AckEnds outcome e ∧
      s.toCore.Finishes job.id e now (ackOutcome s now job outcome).toCore) ∨
    (∃ delayMs exit seq, outcome = .retry delayMs exit ∧
      Step s.toCore (.move job.id (.requeue delayMs exit now seq))
        (ackOutcome s now job outcome).toCore) ∨
    ∃ failFast children, outcome = .fanOut failFast children := by
  have hw : job.state ≠ .waitingChildren := by
    rw [ha]
    decide
  have hend : ∀ e : Ending V, e.Enabled job → ∀ c',
      c' = ((s.toCore.putJob (endJob job now e)).appendOutbox (endJob job now e)
        e.outcome).applyKeep (endJob job now e) now →
      s.toCore.Finishes job.id e now c' := by
    intro e hen c' hc
    rw [← finish_eq_of_not_parked e now hw] at hc
    exact finish_finishes hk job e hj hen (by rw [endJob_state, isTerminal_toJobState]) hc
  cases outcome with
  | complete exit => exact .inl ⟨_, .complete exit, hend (.complete exit) ha _ (terminate_toCore ..)⟩
  | fail exit => exact .inl ⟨_, .fail exit, hend (.fail exit) ha _ (terminate_toCore ..)⟩
  | cancelled => exact .inl ⟨_, .cancelled, hend .ackCancelled ha _ (terminate_toCore ..)⟩
  | retry delayMs exit =>
    unfold ackOutcome
    simp only
    split
    · exact .inl ⟨_, .retry delayMs exit,
        hend .ackCancelled ha _ (markCancelled_toCore_of_not_parked _ _ _ hw)⟩
    · rename_i hcancel
      have hcancel : job.cancelRequested = false := Bool.eq_false_iff.mpr hcancel
      refine .inr (.inl ⟨delayMs, exit, s.seq + 1, rfl, ?_⟩)
      rw [signalWake_toCore]
      exact .move (.requeue delayMs exit now (s.seq + 1)) hj ⟨ha, hcancel⟩
  | fanOut failFast children => exact .inr (.inr ⟨failFast, children, rfl⟩)

theorem ackOutcome_does {s : Store V} (hk : s.toCore.Keyed) {job : MemJob V} (now : Millis)
    (token : String) (outcome : AckOutcome V) (hj : s.jobs.get? job.id = some job)
    (ha : job.state = .active) :
    Does (Allows now (.ack job.id token outcome)) s.toCore
      (ackOutcome s now job outcome).toCore := by
  rcases ackOutcome_cases hk now outcome hj ha with ⟨e, he, hfin⟩ |
    ⟨delayMs, exit, seq, rfl, hstep⟩ | ⟨failFast, children, rfl⟩
  · exact hfin.does (.ackFinish he) fun _ => .ackPrune ..
  · exact .single hstep (.ackRequeue ..)
  · exact ackFanOut_does hk now token failFast children hj ha

/-- The token guard of `ack`. -/
theorem ack_ok {s : Store V} {now : Millis} {id : JobId} {token : String} {outcome : AckOutcome V}
    {u : Unit} (h : (ack s now id token outcome).1 = .ok u) :
    ∃ job, s.jobs.get? id = some job ∧ job.state = .active ∧ job.lockToken = some token ∧
      (ack s now id token outcome).2 = ackOutcome s now job outcome := by
  unfold ack at h ⊢
  split at h
  · cases h
  · rename_i job hj
    split at h
    · cases h
    · rename_i hlock
      rw [if_neg hlock]
      split at h
      · cases h
      · rename_i hid
        rw [if_neg hid]
        rw [not_or, not_not, not_not] at hlock
        exact ⟨job, hj, hlock.1, hlock.2, rfl⟩

theorem ack_error {s : Store V} {now : Millis} {id : JobId} {token : String}
    {outcome : AckOutcome V} {e : StoreError} (h : (ack s now id token outcome).1 = .error e) :
    (ack s now id token outcome).2 = s := by
  unfold ack at h ⊢
  split at h
  · rfl
  · split at h
    · rename_i hlock
      rw [if_pos hlock]
    · rename_i hlock
      rw [if_neg hlock]
      split at h
      · rename_i hid
        rw [if_pos hid]
      · cases h

theorem ack_does {s : Store V} (hk : s.toCore.Keyed) (now : Millis) (id : JobId) (token : String)
    (outcome : AckOutcome V) :
    Does (Allows now (.ack id token outcome)) s.toCore (ack s now id token outcome).2.toCore := by
  unfold ack
  split
  · exact .refl _ _
  · rename_i job hj
    split
    · exact .refl _ _
    · rename_i hlock
      split
      · exact .refl _ _
      · obtain rfl := hk _ _ hj
        exact ackOutcome_does hk now token outcome hj
          (by_contra fun h => hlock (.inl h))

/-! ## Locks -/

/-- The token guard of `release`, which honours a pending cancel. -/
theorem release_ok {s : Store V} (hk : s.toCore.Keyed) {now : Millis} {id : JobId} {token : String}
    {u : Unit} (h : (release s now id token).1 = .ok u) :
    ∃ job, s.jobs.get? id = some job ∧ job.state = .active ∧ job.lockToken = some token ∧
      (s.toCore.Finishes id .cancelled now (release s now id token).2.toCore ∨
        Step s.toCore (.move id .release) (release s now id token).2.toCore) := by
  unfold release at h ⊢
  split at h
  · cases h
  · rename_i job hj
    split at h
    · cases h
    · rename_i hlock
      rw [if_neg hlock]
      rw [not_or, not_not, not_not] at hlock
      refine ⟨job, hj, hlock.1, hlock.2, ?_⟩
      obtain rfl := hk _ _ hj
      split
      · exact .inl (markCancelled_finishes hk now hj (by rw [hlock.1]; rfl))
      · rename_i hcancel
        rw [signalWake_toCore]
        exact .inr (.move .release hj ⟨hlock.1, Bool.eq_false_iff.mpr hcancel⟩)

theorem release_error {s : Store V} {now : Millis} {id : JobId} {token : String} {e : StoreError}
    (h : (release s now id token).1 = .error e) : (release s now id token).2 = s := by
  unfold release at h ⊢
  split at h
  · rfl
  · split at h
    · rename_i hlock
      rw [if_pos hlock]
    · split at h <;> cases h

theorem release_does {s : Store V} (hk : s.toCore.Keyed) (now : Millis) (id : JobId)
    (token : String) :
    Does (Allows now (.release id token)) s.toCore (release s now id token).2.toCore := by
  cases hres : (release s now id token).1 with
  | error e =>
    rw [release_error hres]
    exact .refl _ _
  | ok u =>
    obtain ⟨_, _, _, _, hfin | hstep⟩ := release_ok hk hres
    · exact hfin.does (.releaseCancel ..) fun _ => .releasePrune ..
    · exact .single hstep (.release ..)

theorem extendLock_does (now durationMs : Millis) (acc : ExtendLocksResult × Store V) (lock : Lock)
    {P : Label V → Prop} (hP : P (.move lock.id (.extend (now + durationMs)))) :
    Does P acc.2.toCore (extendLock now durationMs acc lock).2.toCore := by
  unfold extendLock
  simp only
  split
  · exact .refl _ _
  · rename_i job hj
    split
    · exact .refl _ _
    · rename_i hlock
      split
      · exact .refl _ _
      · rename_i hcancel
        have ha : job.state = .active := by_contra fun h => hlock (.inl h)
        exact .single (.move (.extend (now + durationMs)) hj ⟨ha, Bool.eq_false_iff.mpr hcancel⟩) hP

theorem extendLocks_does {s : Store V} (hk : s.toCore.Keyed) (now : Millis) (locks : List Lock)
    (durationMs : Millis) :
    Does (Allows now (.extendLocks locks durationMs)) s.toCore
      (extendLocks s now locks durationMs).2.toCore := by
  have hfold := Does.foldl (P := Allows (V := V) now (.extendLocks locks durationMs)) (I := Core.Keyed)
    (fun acc : ExtendLocksResult × Store V => acc.2.toCore) (extendLock now durationMs) locks
    (fun acc lock _ hk => by
      have h : Does (Allows now (.extendLocks locks durationMs)) acc.2.toCore
          (extendLock now durationMs acc lock).2.toCore :=
        extendLock_does now durationMs acc lock (.extend durationMs lock.id)
      exact ⟨h, h.keyed hk⟩) (⟨[], []⟩, s) hk
  exact hfold.1

/-- An expired lock is gone after the iteration of its job: a pending cancel is honoured, and a job
that stalled too often fails. -/
theorem recoverJob_expired (now : Millis) (maxStalledCount : ℤ) (acc : List Recovered × Store V)
    {job : MemJob V} {expiresAt : Millis} (hk : acc.2.toCore.Keyed)
    (hj : acc.2.jobs.get? job.id = some job) (ha : job.state = .active)
    (he : job.lockExpiresAt = some expiresAt) (hle : expiresAt ≤ now) :
    (∃ e, (e = .cancelled ∨ e = .stalled) ∧ acc.2.toCore.Finishes job.id e now
      (recoverJob now maxStalledCount acc job.id).2.toCore) ∨
    Step acc.2.toCore (.move job.id (.stall now))
      (recoverJob now maxStalledCount acc job.id).2.toCore := by
  unfold recoverJob
  simp only [hj, ha, he, if_neg (not_lt.mpr hle)]
  split
  · exact .inl ⟨_, .inl rfl, markCancelled_finishes hk now hj (by rw [ha]; rfl)⟩
  · rename_i hcancel
    have hcancel : job.cancelRequested = false := Bool.eq_false_iff.mpr hcancel
    split
    · have hfin : Step acc.2.toCore (.finish job.id .stalled now) _ :=
        .finish .stalled now hj ⟨ha, hcancel⟩
      rw [finish_eq_of_not_parked .stalled now (by rw [ha]; decide)] at hfin
      rw [releaseDedupe_toCore]
      exact .inl ⟨.stalled, .inr rfl, _, hfin, .refl _ _⟩
    · exact .inr (.move (.stall now) hj ⟨ha, hcancel⟩)

/-- Any other iteration does nothing. -/
theorem recoverJob_skip (now : Millis) (maxStalledCount : ℤ) (acc : List Recovered × Store V)
    (id : JobId)
    (h : ∀ job expiresAt, acc.2.jobs.get? id = some job → job.state = .active →
      job.lockExpiresAt = some expiresAt → now < expiresAt) :
    recoverJob now maxStalledCount acc id = acc := by
  unfold recoverJob
  simp only
  split
  · rfl
  · rename_i job hj
    split
    · rename_i expiresAt ha he
      rw [if_pos (h job expiresAt hj ha he)]
    · rfl

theorem recoverJob_does (now : Millis) (maxStalledCount : ℤ) (acc : List Recovered × Store V)
    (id : JobId) (hk : acc.2.toCore.Keyed) {P : Label V → Prop} (hstall : P (.move id (.stall now)))
    (hfail : P (.finish id .stalled now)) (hcancel : P (.finish id .cancelled now))
    (hprune : ∀ victim, P (.prune victim)) :
    Does P acc.2.toCore (recoverJob now maxStalledCount acc id).2.toCore := by
  by_cases hdue : ∃ job expiresAt, acc.2.jobs.get? id = some job ∧ job.state = .active ∧
      job.lockExpiresAt = some expiresAt ∧ expiresAt ≤ now
  · obtain ⟨job, expiresAt, hj, ha, he, hle⟩ := hdue
    obtain rfl := hk _ _ hj
    rcases recoverJob_expired now maxStalledCount acc hk hj ha he hle with
      ⟨e, rfl | rfl, hfin⟩ | hstep
    · exact hfin.does hcancel hprune
    · exact hfin.does hfail hprune
    · exact .single hstep hstall
  · rw [recoverJob_skip now maxStalledCount acc id fun job expiresAt hj ha he =>
      not_le.mp fun hle => hdue ⟨job, expiresAt, hj, ha, he, hle⟩]
    exact .refl _ _

theorem recoverStalled_does {s : Store V} (hk : s.toCore.Keyed) (now : Millis)
    (maxStalledCount : ℤ) :
    Does (Allows now (.recoverStalled maxStalledCount)) s.toCore
      (recoverStalled s now maxStalledCount).2.toCore := by
  have hfold := Does.foldl (P := Allows (V := V) now (.recoverStalled maxStalledCount)) (I := Core.Keyed)
    (fun acc : List Recovered × Store V => acc.2.toCore) (recoverJob now maxStalledCount) s.jobs.keys
    (fun acc id _ hk => by
      have h : Does (Allows now (.recoverStalled maxStalledCount)) acc.2.toCore
          (recoverJob now maxStalledCount acc id).2.toCore :=
        recoverJob_does now maxStalledCount acc id hk (.stall ..) (.stallFail ..)
          (.stallCancel ..) fun _ => .stallPrune ..
      exact ⟨h, h.keyed hk⟩) ([], s) hk
  unfold recoverStalled
  simp only
  split
  · rw [signalWake_toCore]
    exact hfold.1
  · exact hfold.1

/-! ## Maintenance verbs -/

theorem retry_does (s : Store V) (now : Millis) (id : JobId) :
    Does (Allows now (.retry id)) s.toCore (retry s now id).2.toCore := by
  unfold retry
  split
  · exact .refl _ _
  · rename_i job hj
    split
    · exact .refl _ _
    · rename_i hst
      rw [signalWake_toCore]
      exact .single (.move (.retry now (s.seq + 1)) hj (by_contra hst)) (.retry id (s.seq + 1))

theorem cancelJob_does {s : Store V} (hk : s.toCore.Keyed) (now : Millis) (id : JobId)
    {P : Label V → Prop} (hfinish : P (.finish id .cancelled now))
    (hrequest : P (.move id .requestCancel)) (hprune : ∀ victim, P (.prune victim)) :
    Does P s.toCore (cancelJob s now id).2.toCore := by
  unfold cancelJob
  split
  · exact .refl _ _
  · rename_i job hj
    obtain rfl := hk _ _ hj
    split
    · rename_i hst
      exact (markCancelled_finishes hk now hj (by rw [hst]; rfl)).does hfinish hprune
    · rename_i hst
      exact (markCancelled_finishes hk now hj (by rw [hst]; rfl)).does hfinish hprune
    · rename_i hst
      exact (markCancelled_finishes hk now hj (by rw [hst]; rfl)).does hfinish hprune
    · rename_i hst
      exact .single (.move .requestCancel hj hst) hrequest
    · exact .refl _ _

theorem cancelByDedupe_does {s : Store V} (hk : s.toCore.Keyed) (now : Millis)
    (name key : String) :
    Does (Allows now (.cancelByDedupe name key)) s.toCore
      (cancelByDedupe s now name key).2.toCore := by
  unfold cancelByDedupe
  split
  · exact .refl _ _
  · rename_i entry _
    have h := cancelJob_does hk now entry.jobId (P := Allows now (.cancelByDedupe name key))
      (.cancelKeyed ..) (.cancelKeyedActive ..) (fun _ => .cancelKeyedPrune ..)
    split <;> rename_i hc <;> rw [hc] at h <;> exact h

theorem promote_does (s : Store V) (now : Millis) (id : JobId) :
    Does (Allows now (.promote id)) s.toCore (promote s now id).2.toCore := by
  unfold promote
  split
  · exact .refl _ _
  · rename_i job hj
    split
    · exact .refl _ _
    · rename_i hst
      rw [signalWake_toCore]
      exact .single (.move (.promoteNow now) hj (by_contra hst)) (.promote id)

theorem remove_does (s : Store V) (now : Millis) (id : JobId) :
    Does (Allows now (.remove id)) s.toCore (remove s id).2.toCore := by
  unfold remove
  split
  · exact .refl _ _
  · rename_i job hj
    split
    · exact .refl _ _
    · rename_i hst
      exact .single (.remove hj (fun h => hst (.inl h)) (fun h => hst (.inr h))) (.remove id)

/-! ## Child results -/

theorem recordReport_reports (acc : RecordState V) (entry : FlowChildReport V × ℕ) :
    Does (· = .report entry.1) acc.core (recordReport acc entry).core := by
  unfold recordReport
  simp only
  split
  · exact .refl _ _
  · rename_i row hrow
    split
    · exact .refl _ _
    · rename_i hp
      exact .single (.report entry.1 hrow (by_contra hp)) rfl

theorem recordReport_does (now : Millis) {reports : List (FlowChildReport V)} (acc : RecordState V)
    (entry : FlowChildReport V × ℕ) (h : entry.1 ∈ reports) :
    Does (Allows now (.recordChildResults reports)) acc.core (recordReport acc entry).core :=
  (recordReport_reports acc entry).mono fun l hl => by
    subst hl
    exact .report h

theorem settleFailFast_toCore (s : Store V) (now : Millis) (parent : MemJob V) (childKey : String)
    (hw : parent.state = .waitingChildren) :
    (settleFailFast s now parent childKey).toCore =
      (s.toCore.finish parent (.failFast childKey) now).applyKeep
        (endJob { parent with flow := s.toCore.settledFlow? parent } now (.failFast childKey))
        now := by
  simp only [settleFailFast, settleMarkRows_eq, terminate_toCore]
  rw [finish_eq, Core.settledRows, Core.settledFlow?, if_pos hw, if_pos hw]
  rfl

theorem settleFailFast_finishes {s : Store V} (hk : s.toCore.Keyed) (now : Millis) {parent : MemJob V}
    (childKey : String) (hj : s.jobs.get? parent.id = some parent)
    (hw : parent.state = .waitingChildren) :
    s.toCore.Finishes parent.id (.failFast childKey) now
      (settleFailFast s now parent childKey).toCore :=
  finish_finishes hk parent (.failFast childKey) hj hw (by rw [endJob_state, isTerminal_toJobState])
    (settleFailFast_toCore s now parent childKey hw)

/-- The steps of phase 2. -/
def Label.Settles (now : Millis) : Label V → Prop
  | .finish _ (.failFast _) t => t = now
  | .move _ (.resume t _) => t = now
  | .prune _ => True
  | _ => False

theorem Label.Settles.allows {now : Millis} {l : Label V} (h : l.Settles now)
    (reports : List (FlowChildReport V)) : Allows now (.recordChildResults reports) l := by
  cases l with
  | finish id e t =>
    cases e with
    | failFast =>
      cases h
      exact .failFast ..
    | _ => exact h.elim
  | move id m =>
    cases m with
    | resume =>
      cases h
      exact .settle ..
    | _ => exact h.elim
  | prune => exact .settlePrune ..
  | _ => exact h.elim

theorem settleTouched_does (now : Millis) (reports : List (FlowChildReport V))
    (acc : List ReportResult × Store V) (entry : JobId × Touch) (hk : acc.2.toCore.Keyed) :
    Does (Label.Settles now) acc.2.toCore (settleTouched now reports acc entry).2.toCore := by
  unfold settleTouched
  simp only
  split
  · exact .refl _ _
  · rename_i parent hj
    obtain hid := hk _ _ hj
    rw [← hid] at hj
    split
    · exact .refl _ _
    · rename_i flow hflow
      split
      · exact .refl _ _
      · rename_i hw
        have hw : parent.state = .waitingChildren := by_contra hw
        split
        · rename_i index report _
          exact (settleFailFast_finishes hk now report.childKey hj hw).does rfl fun _ => trivial
        · split
          · rename_i hpending
            rw [makeRunnable_toCore]
            exact .single (.move (.resume now (acc.2.seq + 1)) hj ⟨hw, flow, hflow, hpending⟩)
              rfl
          · exact .refl _ _

/-- The state between the two phases of `recordChildResults`. -/
def recorded (s : Store V) (reports : List (FlowChildReport V)) : RecordState V :=
  reports.zipIdx.foldl recordReport
    { core := s.toCore, results := reports.map fun _ => ⟨false, false⟩, touched := ∅ }

theorem recorded_reports (s : Store V) (reports : List (FlowChildReport V)) :
    Does (fun l => ∃ report ∈ reports, l = .report report) s.toCore (recorded s reports).core :=
  (Does.foldl (I := fun _ => True) RecordState.core recordReport reports.zipIdx
    (fun acc entry h _ => ⟨(recordReport_reports acc entry).mono fun _ hl =>
      ⟨entry.1, List.fst_mem_of_mem_zipIdx h, hl⟩, trivial⟩)
    { core := s.toCore, results := reports.map fun _ => ⟨false, false⟩, touched := ∅ } trivial).1

theorem recorded_does (s : Store V) (now : Millis) (reports : List (FlowChildReport V)) :
    Does (Allows now (.recordChildResults reports)) s.toCore (recorded s reports).core := by
  refine (recorded_reports s reports).mono fun l hl => ?_
  obtain ⟨report, hmem, rfl⟩ := hl
  exact .report hmem

theorem settled_does {s : Store V} (hk : s.toCore.Keyed) (now : Millis)
    (reports : List (FlowChildReport V)) :
    Does (Label.Settles now) (recorded s reports).core
      (recordChildResults s now reports).2.toCore :=
  (Does.foldl (I := Core.Keyed) (fun acc : List ReportResult × Store V => acc.2.toCore)
    (settleTouched now reports) (recorded s reports).touched.entries
    (fun acc entry _ hk => ⟨settleTouched_does now reports acc entry hk,
      (settleTouched_does now reports acc entry hk).keyed hk⟩)
    ((recorded s reports).results, { s with toCore := (recorded s reports).core })
    ((recorded_does s now reports).keyed hk)).1

theorem recordChildResults_does {s : Store V} (hk : s.toCore.Keyed) (now : Millis)
    (reports : List (FlowChildReport V)) :
    Does (Allows now (.recordChildResults reports)) s.toCore
      (recordChildResults s now reports).2.toCore :=
  (recorded_does s now reports).trans ((settled_does hk now reports).mono fun _ hl => hl.allows reports)

/-! ## The flow sweep -/

theorem sweepRow_does (c : Core V) (now : Millis) (options : FlowSweepOptions)
    (reconciling : Bool) (flowId : JobId) (scan : RowScan V) (row : MemFlowChild V) :
    Does (Allows now (.flowSweepWork options)) { c with flowChildren := scan.flowChildren }
      { c with flowChildren := (sweepRow now options reconciling flowId scan row).flowChildren } := by
  unfold sweepRow
  simp only
  split
  · split <;> exact .single (.rearm flowId row.childKey now) (.rearm ..)
  · split <;> exact .refl _ _

theorem sweepFlow_does (c : Core V) (now : Millis) (options : FlowSweepOptions)
    (acc : FlowSweepState V) (entry : JobId × Rows V) :
    Does (Allows now (.flowSweepWork options)) { c with flowChildren := acc.flowChildren }
      { c with flowChildren := (sweepFlow c now options acc entry).flowChildren } :=
  (Does.foldl (I := fun _ => True)
    (fun scan : RowScan V => { c with flowChildren := scan.flowChildren })
    (sweepRow now options _ entry.1) entry.2.values
    (fun scan row _ _ => ⟨sweepRow_does c now options _ entry.1 scan row, trivial⟩)
    ⟨acc.flowChildren, acc.reconcileCount, acc.cascadeCount, [], []⟩ trivial).1

theorem flowSweepWork_does (s : Store V) (now : Millis) (options : FlowSweepOptions) :
    Does (Allows now (.flowSweepWork options)) s.toCore (flowSweepWork s now options).2.toCore :=
  (Does.foldl (I := fun _ => True)
    (fun acc : FlowSweepState V => { s.toCore with flowChildren := acc.flowChildren })
    (sweepFlow s.toCore now options) s.flowChildren.entries
    (fun acc entry _ _ => ⟨sweepFlow_does s.toCore now options acc entry, trivial⟩)
    ⟨s.flowChildren, 0, 0, ⟨[], []⟩⟩ trivial).1

theorem markChildrenCascaded_does (s : Store V) (now : Millis) (flowId : JobId)
    (childKeys : List String) :
    Does (Allows now (.markChildrenCascaded flowId childKeys)) s.toCore
      (markChildrenCascaded s flowId childKeys).toCore := by
  have hfold := Does.foldl (P := Allows (V := V) now (.markChildrenCascaded flowId childKeys))
    (I := fun _ => True) id
    (fun c key => c.modifyRow flowId key fun row => { row with cascaded := true }) childKeys
    (fun c key h _ => ⟨.single (.cascade flowId key) (.cascade h), trivial⟩) s.toCore trivial
  have heq : ∀ c : Core V, childKeys.foldl
      (fun c key => c.modifyRow flowId key fun row => { row with cascaded := true }) c =
      { c with flowChildren := c.flowChildren.modify flowId (cascadeRows childKeys) } := by
    clear hfold
    induction childKeys with
    | nil =>
      intro c
      rw [List.foldl_nil, show cascadeRows (V := V) [] = id from rfl, JsMap.modify_id]
    | cons key keys ih =>
      intro c
      rw [List.foldl_cons, ih, Core.modifyRow]
      simp only [JsMap.modify_modify]
      rfl
  rw [id, heq] at hfold
  exact hfold.1

/-! ## The history sweep -/

theorem sweepJob_does (c₀ : Core V) (hk : c₀.Keyed) (now : Millis)
    (ttlByState : HistoryTtlByState) (c : Core V) (job : MemJob V) (hjob : job ∈ c₀.jobs.values)
    (hsub : ∀ id j, c.jobs.get? id = some j → c₀.jobs.get? id = some j) :
    Does (Allows now (.sweepHistory ttlByState)) c (sweepJob now ttlByState c job) ∧
      ∀ id j, (sweepJob now ttlByState c job).jobs.get? id = some j →
        c₀.jobs.get? id = some j := by
  unfold sweepJob
  split
  · exact ⟨.refl _ _, hsub⟩
  · rename_i state hstate
    split
    · exact ⟨.refl _ _, hsub⟩
    · split
      · rename_i hdue
        constructor
        · refine .single (.prune ?_ hdue.2) (.sweep ..)
          intro j hj
          have hj := hsub _ _ hj
          rw [mem_values_get? hk hjob] at hj
          rw [← Option.some.inj hj]
          revert hstate
          cases job.state <;> simp [JobState.terminal?, JobState.isTerminal]
        · intro id j hj
          rw [Core.deleteJob, JsMap.get?_delete] at hj
          split at hj
          · cases hj
          · exact hsub id j hj
      · exact ⟨.refl _ _, hsub⟩

theorem sweepHistory_does {s : Store V} (hk : s.toCore.Keyed) (now : Millis)
    (ttlByState : HistoryTtlByState) :
    Does (Allows now (.sweepHistory ttlByState)) s.toCore
      (sweepHistory s now ttlByState).toCore :=
  (Does.foldl (I := fun c : Core V => ∀ id j, c.jobs.get? id = some j → s.jobs.get? id = some j) id
    (sweepJob now ttlByState) s.jobs.values
    (fun c job hjob hsub => sweepJob_does s.toCore hk now ttlByState c job hjob hsub) s.toCore
    fun _ _ h => h).1

/-! ## All operations -/

/-- What an operation does to the jobs, rows and outbox is a chain of the steps it allows. -/
theorem exec_does {s : Store V} (hk : s.toCore.Keyed) (now : Millis) (op : Op V) :
    Does (Allows now op) s.toCore (exec s now op).toCore := by
  cases op with
  | enqueue request ids => exact enqueueOne_does s now request ids
  | resumeEnqueue request candidate => exact resumeEnqueue_does s now request candidate
  | claim options => exact claim_does hk now options
  | ack id token outcome => exact ack_does hk now id token outcome
  | release id token => exact release_does hk now id token
  | extendLocks locks durationMs => exact extendLocks_does hk now locks durationMs
  | recoverStalled maxStalledCount => exact recoverStalled_does hk now maxStalledCount
  | retry id => exact retry_does s now id
  | cancel id => exact cancelJob_does hk now id (.cancel id) (.cancelActive id) (.cancelPrune id)
  | cancelByDedupe name key => exact cancelByDedupe_does hk now name key
  | promote id => exact promote_does s now id
  | tickSchedule key expectedRunAt nextRunAt request =>
    exact tickSchedule_does s now key expectedRunAt nextRunAt request
  | recordChildResults reports => exact recordChildResults_does hk now reports
  | deleteOutbox ids => exact .single (.dropOutbox ids) (.deleteOutbox ids)
  | flowSweepWork options => exact flowSweepWork_does s now options
  | markChildrenCascaded flowId childKeys => exact markChildrenCascaded_does s now flowId childKeys
  | remove id => exact remove_does s now id
  | sweepHistory ttlByState => exact sweepHistory_does hk now ttlByState
  | awaitWake queues wakeToken =>
    simp only [exec, awaitWake]
    split <;> exact .refl _ _
  | dropWaiter id => exact .refl _ _
  | pause queue =>
    simp only [exec, pause]
    split <;> exact .refl _ _
  | resume queue =>
    simp only [exec, resume]
    split
    · rw [signalWake_toCore]
      exact .refl _ _
    · exact .refl _ _
  | upsertSchedule schedule =>
    simp only [exec, upsertSchedule, signalWake_toCore]
    exact .refl _ _
  | removeSchedule key => exact .refl _ _
  | advanceSchedule key expectedRunAt nextRunAt =>
    simp only [exec, advanceSchedule]
    split
    · exact .refl _ _
    · split <;> exact .refl _ _

theorem exec_keyed {s : Store V} (hk : s.toCore.Keyed) (now : Millis) (op : Op V) :
    (exec s now op).toCore.Keyed :=
  (exec_does hk now op).keyed hk

/-! ## Runs of the service -/

/-- One service call or timed sweep, at an arbitrary clock reading. -/
def Next (s : Store V) (event : Millis × Op V) (s' : Store V) : Prop :=
  s' = exec s event.1 event.2

/-- The same with calls that satisfy `p` only. -/
def NextWhere (p : Op V → Prop) (s : Store V) (event : Millis × Op V) (s' : Store V) : Prop :=
  p event.2 ∧ Next s event s'

def Initial (s : Store V) : Prop := s = Store.empty

def execs (s : Store V) (events : List (Millis × Op V)) : Store V :=
  events.foldl (fun s event => exec s event.1 event.2) s

theorem run_execs {p : Op V → Prop} (events : List (Millis × Op V))
    (h : ∀ event ∈ events, p event.2) (s : Store V) :
    Run (NextWhere p) s events (execs s events) := by
  induction events generalizing s with
  | nil => exact .refl s
  | cons event events ih =>
    exact .cons ⟨h event (by simp), rfl⟩ (ih (fun e he => h e (by simp [he])) _)

theorem reachable_execs {p : Op V → Prop} (events : List (Millis × Op V))
    (h : ∀ event ∈ events, p event.2) :
    Reachable Initial (NextWhere p) (execs (Store.empty : Store V) events) :=
  ⟨Store.empty, events, rfl, run_execs events h _⟩

theorem run_next (events : List (Millis × Op V)) (s : Store V) : Run Next s events (execs s events) :=
  (run_execs (p := fun _ => True) events (fun _ _ => trivial) s).mono fun _ _ _ h => h.2

theorem reachable_next (events : List (Millis × Op V)) :
    Reachable Initial Next (execs (Store.empty : Store V) events) :=
  ⟨Store.empty, events, rfl, run_next events _⟩

/-- What every operation keeps until one of them `E`nds it, holds all along a run or up to such an
operation. -/
theorem execs_until {I C : Store V → Prop} {E : Store V → Millis → Op V → Prop}
    (hkeep : ∀ s now op, I s → I (exec s now op))
    (hstep : ∀ s now op, I s → C s → C (exec s now op) ∨ E s now op) {s : Store V} (hI : I s)
    (hC : C s) (events : List (Millis × Op V)) :
    (∀ es, es <+: events → C (execs s es)) ∨
      ∃ es now op, es ++ [(now, op)] <+: events ∧ (∀ es', es' <+: es → C (execs s es')) ∧
        E (execs s es) now op := by
  induction events generalizing s with
  | nil =>
    refine .inl fun es he => ?_
    rw [List.prefix_nil.mp he]
    exact hC
  | cons event events ih =>
    have hcons : ∀ {es es' : List (Millis × Op V)}, es' <+: event :: es →
        (∀ es', es' <+: es → C (execs (exec s event.1 event.2) es')) → C (execs s es') := by
      intro es es' he hall
      rcases List.prefix_cons_iff.mp he with rfl | ⟨rest, rfl, hrest⟩
      · exact hC
      · exact hall rest hrest
    rcases hstep s event.1 event.2 hI hC with hC' | hE
    · rcases ih (hkeep s event.1 event.2 hI) hC' with hall | ⟨es, now, op, hp, hall, hE⟩
      · exact .inl fun es he => hcons he hall
      · exact .inr ⟨event :: es, now, op, List.cons_prefix_cons.mpr ⟨rfl, hp⟩,
          fun es' he => hcons he hall, hE⟩
    · refine .inr ⟨[], event.1, event.2, List.cons_prefix_cons.mpr ⟨rfl, List.nil_prefix⟩,
        fun es' he => ?_, hE⟩
      rw [List.prefix_nil.mp he]
      exact hC

theorem reachable_keyed {s : Store V} (h : Reachable Initial Next s) : s.toCore.Keyed := by
  refine h.induct (I := fun s => s.toCore.Keyed) ?_ ?_
  · rintro s rfl id job hj
    cases hj
  · rintro s event s' rfl hk
    exact exec_keyed hk event.1 event.2

end EffectMq.Memory
