import EffectMq.Library.Transition
import EffectMq.MemoryJobStore.Service

/-! # Elementary steps of the in-memory driver

What a service operation can do to the jobs, rows and outbox, said once. A `Label` names an
elementary step and `Step` is its effect: a fresh job, a `Move` of one record, a terminal transition
with its ledger entry and report, a fan-out, an applied report, a deletion. Every operation is a
chain of such steps (`Decompose.lean`), so an invariant is proved for the steps alone.

`View` is what the store holds under one job id, its record and its dependency rows, and `ViewStep`
is `Step` read there. `Does.view` is the invariant rule for facts about one id.
-/

namespace EffectMq.Memory
set_option autoImplicit false
set_option maxHeartbeats 250000

open Transition

variable {V : Type}

/-! ## Moves of one record -/

/-- A change of one job record that touches no row and no outbox entry. -/
inductive Move (V : Type)
  | replace (request : EnqueueRequest V) (now : Millis)
  | promoteNow (now : Millis)
  | claim (options : ClaimOptions) (now : Millis)
  | extend (expiresAt : Millis)
  | requestCancel
  | requeue (delayMs : Millis) (exit : Option V) (now : Millis) (seq : ℕ)
  | release
  | stall (now : Millis)
  | retry (now : Millis) (seq : ℕ)
  | resume (now : Millis) (seq : ℕ)

def Move.apply (job : MemJob V) : Move V → MemJob V
  | .replace request now => replaceJob job request now
  | .promoteNow now => { job with state := .waiting, runAt := now }
  | .claim options now => claimJob job options now
  | .extend expiresAt => { job with lockExpiresAt := some expiresAt }
  | .requestCancel => { job with cancelRequested := true }
  | .requeue delayMs exit now seq =>
    { recordAttempt { clearLock job with attemptsMade := job.attemptsMade + 1 } .retried now exit with
      runAt := now + max 0 delayMs
      state := if 0 < delayMs then .delayed else .waiting
      seq := seq }
  | .release => { clearLock job with state := .waiting }
  | .stall now =>
    { recordAttempt { clearLock job with stalledCount := job.stalledCount + 1 } .stalled now none with
      state := .waiting }
  | .retry now seq =>
    { job with
      state := .waiting, attemptsMade := 0, stalledCount := 0, cancelRequested := false,
      exit := none, failedReason := none, finishedAt := none, processedAt := none, runAt := now,
      seq := seq }
  | .resume now seq => { job with state := .waiting, runAt := now, seq := seq }

def Move.Enabled (job : MemJob V) : Move V → Prop
  | .replace _ _ | .promoteNow _ => job.state = .delayed
  | .claim _ _ => job.state = .waiting
  | .extend _ | .requeue _ _ _ _ | .release | .stall _ =>
    job.state = .active ∧ job.cancelRequested = false
  | .requestCancel => job.state = .active
  | .retry _ _ => job.state = .failed
  | .resume _ _ => job.state = .waitingChildren ∧ ∃ flow, job.flow = some flow ∧ flow.pending = 0

/-- The one move of a parked job is its resumption, when nothing is pending. -/
theorem Move.Enabled.parked {job : MemJob V} {m : Move V} (h : m.Enabled job)
    (hw : job.state = .waitingChildren) : ∃ flow, job.flow = some flow ∧ flow.pending = 0 := by
  cases m <;> simp_all [Move.Enabled]

/-! ## Terminal transitions -/

/-- How a job enters a terminal state. -/
inductive Ending (V : Type)
  | complete (exit : Option V)
  | fail (exit : Option V)
  | ackCancelled
  | cancelled
  | stalled
  | failFast (childKey : String)

def Ending.outcome : Ending V → TerminalState
  | .complete _ => .completed
  | .fail _ | .stalled | .failFast _ => .failed
  | .ackCancelled | .cancelled => .cancelled

/-- The record right after the transition. -/
def endJob (job : MemJob V) (now : Millis) : Ending V → MemJob V
  | .complete exit =>
    recordAttempt { clearLock job with
      attemptsMade := job.attemptsMade + 1, cancelRequested := false, state := .completed,
      exit := exit, finishedAt := some now } .completed now exit
  | .fail exit =>
    recordAttempt { clearLock job with
      attemptsMade := job.attemptsMade + 1, cancelRequested := false, state := .failed,
      exit := exit, finishedAt := some now } .failed now exit
  | .ackCancelled =>
    recordAttempt { clearLock job with
      attemptsMade := job.attemptsMade + 1, cancelRequested := false, state := .cancelled,
      finishedAt := some now } .cancelled now none
  | .cancelled =>
    recordAttempt { clearLock job with
      cancelRequested := false, state := .cancelled, finishedAt := some now } .cancelled now none
  | .stalled =>
    { recordAttempt { clearLock job with stalledCount := job.stalledCount + 1 } .stalled now none with
      state := .failed, finishedAt := some now, failedReason := some stalledReason }
  | .failFast childKey =>
    recordAttempt { job with
      cancelRequested := false, state := .failed, finishedAt := some now,
      failedReason := some (failFastReason childKey) } .failed now none

def Ending.Enabled (job : MemJob V) : Ending V → Prop
  | .complete _ | .fail _ | .ackCancelled => job.state = .active
  | .cancelled => job.state.isTerminal = false
  | .stalled => job.state = .active ∧ job.cancelRequested = false
  | .failFast _ => job.state = .waitingChildren

theorem Ending.Enabled.not_terminal {job : MemJob V} {e : Ending V} (h : e.Enabled job) :
    job.state.isTerminal = false := by
  cases e <;> simp_all [Ending.Enabled, JobState.isTerminal]

/-- A terminal transition: a parked flow parent first settles its remaining rows. -/
def Core.finish (c : Core V) (job : MemJob V) (e : Ending V) (now : Millis) : Core V :=
  let (c, job) := c.settleIfParked job
  (c.putJob (endJob job now e)).appendOutbox (endJob job now e) e.outcome

/-! ## Fan-out -/

/-- The manifest a fan-out leaves on the parent: the persisted one when there is one. -/
def manifest (job : MemJob V) (failFast : Bool) (children : List (FlowChildSpec V)) : FlowState :=
  job.flow.getD { failFast, pending := children.length, completed := 0, failed := 0, cancelled := 0 }

def parkJob (job : MemJob V) (now : Millis) (flow : FlowState) : MemJob V :=
  { recordAttempt (clearLock job) .fannedOut now none with
    flow := some flow, cancelRequested := false, state := .waitingChildren }

/-- Rows are created only with a new manifest. -/
def Core.fanOutRows (c : Core V) (job : MemJob V) (children : List (FlowChildSpec V))
    (now : Millis) : Core V :=
  if job.flow.isSome then c
  else { c with flowChildren := c.flowChildren.set job.id (newRows job.id now children) }

/-- The parent parks with its manifest. -/
def Core.park (c : Core V) (job : MemJob V) (failFast : Bool) (children : List (FlowChildSpec V))
    (now : Millis) : Core V :=
  (c.fanOutRows job children now).putJob (parkJob job now (manifest job failFast children))

/-! ## Labelled steps -/

inductive Label (V : Type)
  | insert (id : JobId) (request : EnqueueRequest V) (now : Millis) (seq : ℕ)
  | promoteDue (now : Millis)
  | move (id : JobId) (m : Move V)
  | finish (id : JobId) (e : Ending V) (now : Millis)
  | park (id : JobId) (failFast : Bool) (children : List (FlowChildSpec V)) (now : Millis)
  | report (report : FlowChildReport V)
  | remove (id : JobId)
  | prune (id : JobId)
  | rearm (flowId : JobId) (childKey : String) (now : Millis)
  | cascade (flowId : JobId) (childKey : String)
  | dropOutbox (ids : List ℕ)

def promoted (now : Millis) (job : MemJob V) : MemJob V :=
  if job.state = .delayed ∧ job.runAt ≤ now then { job with state := .waiting } else job

def Core.modifyRow (c : Core V) (flowId : JobId) (childKey : String)
    (f : MemFlowChild V → MemFlowChild V) : Core V :=
  { c with flowChildren := c.flowChildren.modify flowId fun rows => rows.modify childKey f }

inductive Step : Core V → Label V → Core V → Prop
  | insert {c : Core V} {id : JobId} (request : EnqueueRequest V) (now : Millis) (seq : ℕ)
      (h : c.jobs.get? id = none) :
      Step c (.insert id request now seq) (c.putJob (newJob id request now seq))
  | promoteDue {c : Core V} (now : Millis) :
      Step c (.promoteDue now) { c with jobs := c.jobs.mapValues fun _ => promoted now }
  | move {c : Core V} {id : JobId} {job : MemJob V} (m : Move V)
      (h : c.jobs.get? id = some job) (hm : m.Enabled job) :
      Step c (.move id m) (c.putJob (m.apply job))
  | finish {c : Core V} {id : JobId} {job : MemJob V} (e : Ending V) (now : Millis)
      (h : c.jobs.get? id = some job) (he : e.Enabled job) :
      Step c (.finish id e now) (c.finish job e now)
  | park {c : Core V} {id : JobId} {job : MemJob V} (failFast : Bool)
      (children : List (FlowChildSpec V)) (now : Millis) (h : c.jobs.get? id = some job)
      (ha : job.state = .active) :
      Step c (.park id failFast children now) (c.park job failFast children now)
  | report {c : Core V} {row : MemFlowChild V} (report : FlowChildReport V)
      (h : c.row? report.flowId report.childKey = some row) (hp : row.status = .pending) :
      Step c (.report report) (c.applyReport row report)
  | remove {c : Core V} {id : JobId} {job : MemJob V} (h : c.jobs.get? id = some job)
      (ha : job.state ≠ .active) (hw : job.state ≠ .waitingChildren) :
      Step c (.remove id) (c.deleteJob id)
  | prune {c : Core V} {id : JobId} (ht : ∀ job, c.jobs.get? id = some job → job.state.isTerminal)
      (ho : c.owesCascades id = false) :
      Step c (.prune id) (c.deleteJob id)
  | rearm {c : Core V} (flowId : JobId) (childKey : String) (now : Millis) :
      Step c (.rearm flowId childKey now)
        (c.modifyRow flowId childKey fun row => { row with pendingSince := now })
  | cascade {c : Core V} (flowId : JobId) (childKey : String) :
      Step c (.cascade flowId childKey)
        (c.modifyRow flowId childKey fun row => { row with cascaded := true })
  | dropOutbox {c : Core V} (ids : List ℕ) :
      Step c (.dropOutbox ids)
        { c with outbox := c.outbox.filter fun entry => decide (entry.id ∉ ids) }

/-- `c'` is reached from `c` by elementary steps whose labels all satisfy `P`. -/
def Does (P : Label V → Prop) (c c' : Core V) : Prop :=
  ∃ ls, Run Step c ls c' ∧ ∀ l ∈ ls, P l

theorem Does.refl (P : Label V → Prop) (c : Core V) : Does P c c :=
  ⟨[], .refl c, by simp⟩

theorem Does.single {P : Label V → Prop} {c c' : Core V} {l : Label V} (h : Step c l c')
    (hl : P l) : Does P c c' :=
  ⟨[l], .single h, by simpa using hl⟩

theorem Does.trans {P : Label V → Prop} {c c' c'' : Core V} (h : Does P c c')
    (h' : Does P c' c'') : Does P c c'' := by
  obtain ⟨ls, hr, hl⟩ := h
  obtain ⟨ls', hr', hl'⟩ := h'
  refine ⟨ls ++ ls', hr.trans hr', ?_⟩
  intro l hm
  rcases List.mem_append.mp hm with hm | hm
  · exact hl l hm
  · exact hl' l hm

theorem Does.mono {P Q : Label V → Prop} {c c' : Core V} (hPQ : ∀ l, P l → Q l) (h : Does P c c') :
    Does Q c c' := by
  obtain ⟨ls, hr, hl⟩ := h
  exact ⟨ls, hr, fun l hm => hPQ l (hl l hm)⟩

/-- A fold whose every iteration is a chain of steps is one; `I` is what the iterations need. -/
theorem Does.foldl {α β : Type} {P : Label V → Prop} {I : Core V → Prop} (core : β → Core V)
    (f : β → α → β)
    (as : List α) (hstep : ∀ b, ∀ a ∈ as, I (core b) →
      Does P (core b) (core (f b a)) ∧ I (core (f b a))) :
    ∀ b, I (core b) → Does P (core b) (core (as.foldl f b)) ∧ I (core (as.foldl f b)) := by
  induction as with
  | nil => exact fun b hb => ⟨.refl P _, hb⟩
  | cons a as ih =>
    intro b hb
    obtain ⟨h₁, hI⟩ := hstep b a (by simp) hb
    obtain ⟨h₂, hI'⟩ := ih (fun b a ha => hstep b a (by simp [ha])) (f b a) hI
    exact ⟨h₁.trans h₂, hI'⟩

/-! ## Jobs are stored under their own id -/

def Core.Keyed (c : Core V) : Prop :=
  ∀ id job, c.jobs.get? id = some job → job.id = id

@[simp] theorem putJob_get? (c : Core V) (job : MemJob V) (id : JobId) :
    (c.putJob job).jobs.get? id = if id = job.id then some job else c.jobs.get? id := by
  simp [Core.putJob]

@[simp] theorem putJob_flowChildren (c : Core V) (job : MemJob V) :
    (c.putJob job).flowChildren = c.flowChildren := rfl

@[simp] theorem putJob_outbox (c : Core V) (job : MemJob V) :
    (c.putJob job).outbox = c.outbox := rfl

theorem Core.Keyed.putJob {c : Core V} (h : c.Keyed) (job : MemJob V) : (c.putJob job).Keyed := by
  intro id j hj
  rw [putJob_get?] at hj
  split at hj
  · rename_i hid
    rw [hid, ← Option.some.inj hj]
  · exact h id j hj

@[simp] theorem appendOutbox_jobs (c : Core V) (job : MemJob V) (t : TerminalState) :
    (c.appendOutbox job t).jobs = c.jobs := by
  unfold Core.appendOutbox
  split <;> rfl

@[simp] theorem appendOutbox_flowChildren (c : Core V) (job : MemJob V) (t : TerminalState) :
    (c.appendOutbox job t).flowChildren = c.flowChildren := by
  unfold Core.appendOutbox
  split <;> rfl

@[simp] theorem markPendingRowsCancelled_jobs (c : Core V) (id : JobId) :
    (c.markPendingRowsCancelled id).1.jobs = c.jobs := by
  unfold Core.markPendingRowsCancelled
  split <;> rfl

def pendingRows (rows? : Option (Rows V)) : ℕ :=
  match rows? with
  | none => 0
  | some rows => countStatus rows .pending

theorem markPendingRowsCancelled_snd (c : Core V) (id : JobId) :
    (c.markPendingRowsCancelled id).2 = pendingRows (c.flowChildren.get? id) := by
  unfold Core.markPendingRowsCancelled pendingRows
  cases c.flowChildren.get? id <;> rfl

theorem settleMarkRows_eq (c : Core V) (job : MemJob V) :
    c.settleMarkRows job =
      ((c.markPendingRowsCancelled job.id).1,
        { job with flow := job.flow.map fun flow =>
            settledFlow flow (pendingRows (c.flowChildren.get? job.id)) }) := by
  rw [← markPendingRowsCancelled_snd]
  unfold Core.settleMarkRows
  split
  rename_i h
  rw [h]
  split <;> rename_i hf <;> simp only [hf, Option.map_none, Option.map_some]
  rw [← hf]

@[simp] theorem settleMarkRows_jobs (c : Core V) (job : MemJob V) :
    (c.settleMarkRows job).1.jobs = c.jobs := by
  rw [settleMarkRows_eq, markPendingRowsCancelled_jobs]

@[simp] theorem endJob_id (job : MemJob V) (now : Millis) (e : Ending V) :
    (endJob job now e).id = job.id := by
  cases e <;> rfl

@[simp] theorem endJob_state (job : MemJob V) (now : Millis) (e : Ending V) :
    (endJob job now e).state = e.outcome.toJobState := by
  cases e <;> rfl

@[simp] theorem endJob_flow (job : MemJob V) (now : Millis) (e : Ending V) :
    (endJob job now e).flow = job.flow := by
  cases e <;> rfl

@[simp] theorem endJob_parent (job : MemJob V) (now : Millis) (e : Ending V) :
    (endJob job now e).parent = job.parent := by
  cases e <;> rfl

@[simp] theorem endJob_attemptsMax (job : MemJob V) (now : Millis) (e : Ending V) :
    (endJob job now e).attemptsMax = job.attemptsMax := by
  cases e <;> rfl

@[simp] theorem Move.apply_id (job : MemJob V) (m : Move V) : (m.apply job).id = job.id := by
  cases m <;> rfl

@[simp] theorem Move.apply_flow (job : MemJob V) (m : Move V) : (m.apply job).flow = job.flow := by
  cases m <;> rfl

@[simp] theorem Move.apply_parent (job : MemJob V) (m : Move V) :
    (m.apply job).parent = job.parent := by
  cases m <;> rfl

@[simp] theorem promoted_id (now : Millis) (job : MemJob V) : (promoted now job).id = job.id := by
  unfold promoted
  split <;> rfl

@[simp] theorem promoted_flow (now : Millis) (job : MemJob V) :
    (promoted now job).flow = job.flow := by
  unfold promoted
  split <;> rfl

/-! ## Terminal transitions at the job -/

theorem markPendingRowsCancelled_get? (c : Core V) (id id' : JobId) :
    (c.markPendingRowsCancelled id).1.flowChildren.get? id' =
      if id' = id then (c.flowChildren.get? id').map fun rows => rows.mapValues fun _ => markRow
      else c.flowChildren.get? id' := by
  unfold Core.markPendingRowsCancelled
  split
  · rename_i h
    by_cases hid : id' = id
    · rw [if_pos hid, hid, h, Option.map_none]
    · rw [if_neg hid]
  · rename_i rows h
    simp only [JsMap.get?_set]
    by_cases hid : id' = id
    · rw [if_pos hid, if_pos hid, hid, h, Option.map_some]
    · rw [if_neg hid, if_neg hid]

/-- The flow counters a terminal transition leaves: unchanged unless the job was parked. -/
def Core.settledFlow? (c : Core V) (job : MemJob V) : Option FlowState :=
  if job.state = .waitingChildren then
    job.flow.map fun flow => settledFlow flow (pendingRows (c.flowChildren.get? job.id))
  else job.flow

/-- The rows it leaves. -/
def Core.settledRows (c : Core V) (job : MemJob V) : Core V :=
  if job.state = .waitingChildren then (c.markPendingRowsCancelled job.id).1 else c

theorem settleIfParked_eq (c : Core V) (job : MemJob V) :
    c.settleIfParked job = (c.settledRows job, { job with flow := c.settledFlow? job }) := by
  unfold Core.settleIfParked Core.settledRows Core.settledFlow?
  by_cases hw : job.state = .waitingChildren
  · rw [if_pos hw, if_pos hw, if_pos hw, settleMarkRows_eq]
  · rw [if_neg hw, if_neg hw, if_neg hw]

@[simp] theorem settledRows_jobs (c : Core V) (job : MemJob V) :
    (c.settledRows job).jobs = c.jobs := by
  unfold Core.settledRows
  split
  · rw [markPendingRowsCancelled_jobs]
  · rfl

theorem finish_eq (c : Core V) (job : MemJob V) (e : Ending V) (now : Millis) :
    c.finish job e now =
      ((c.settledRows job).putJob (endJob { job with flow := c.settledFlow? job } now e)).appendOutbox
        (endJob { job with flow := c.settledFlow? job } now e) e.outcome := by
  rw [Core.finish, settleIfParked_eq]

theorem finish_jobs (c : Core V) (job : MemJob V) (e : Ending V) (now : Millis) :
    (c.finish job e now).jobs =
      c.jobs.set job.id (endJob { job with flow := c.settledFlow? job } now e) := by
  rw [finish_eq, appendOutbox_jobs, Core.putJob, endJob_id, settledRows_jobs]

@[simp] theorem finish_get? (c : Core V) (job : MemJob V) (e : Ending V) (now : Millis)
    (id : JobId) :
    (c.finish job e now).jobs.get? id =
      if id = job.id then some (endJob { job with flow := c.settledFlow? job } now e)
      else c.jobs.get? id := by
  rw [finish_jobs, JsMap.get?_set]

@[simp] theorem fanOutRows_jobs (c : Core V) (job : MemJob V) (children : List (FlowChildSpec V))
    (now : Millis) : (c.fanOutRows job children now).jobs = c.jobs := by
  unfold Core.fanOutRows
  split <;> rfl

@[simp] theorem park_get? (c : Core V) (job : MemJob V) (failFast : Bool)
    (children : List (FlowChildSpec V)) (now : Millis) (id : JobId) :
    (c.park job failFast children now).jobs.get? id =
      if id = job.id then some (parkJob job now (manifest job failFast children))
      else c.jobs.get? id := by
  have hid : (parkJob job now (manifest job failFast children)).id = job.id := rfl
  rw [Core.park, putJob_get?, hid, fanOutRows_jobs]

@[simp] theorem finish_flowChildren (c : Core V) (job : MemJob V) (e : Ending V) (now : Millis) :
    (c.finish job e now).flowChildren = (c.settledRows job).flowChildren := by
  rw [finish_eq, appendOutbox_flowChildren, putJob_flowChildren]

/-- An applied report at its parent: one count moves, when there is a manifest. -/
def countReport (report : FlowChildReport V) (parent : MemJob V) : MemJob V :=
  { parent with flow := parent.flow.map fun flow => countOutcome flow report.outcome }

theorem applyReport_get? (c : Core V) (row : MemFlowChild V) (report : FlowChildReport V)
    (hk : c.Keyed) (id : JobId) :
    (c.applyReport row report).jobs.get? id =
      if id = report.flowId then (c.jobs.get? id).map (countReport report)
      else c.jobs.get? id := by
  unfold Core.applyReport
  simp only
  split
  · rename_i h
    by_cases hid : id = report.flowId
    · rw [if_pos hid, hid, h, Option.map_none]
    · rw [if_neg hid]
  · rename_i parent h
    have hpid := hk _ _ h
    split
    · rename_i hflow
      by_cases hid : id = report.flowId
      · rw [if_pos hid, hid, h, Option.map_some, countReport, hflow, Option.map_none, ← hflow]
      · rw [if_neg hid]
    · rename_i flow hflow
      rw [putJob_get?]
      by_cases hid : id = report.flowId
      · rw [if_pos (hid.trans hpid.symm), if_pos hid, hid, h, Option.map_some, countReport, hflow,
          Option.map_some]
      · rw [if_neg (fun h' => hid (h'.trans hpid)), if_neg hid]

theorem applyReport_flowChildren (c : Core V) (row : MemFlowChild V) (report : FlowChildReport V) :
    (c.applyReport row report).flowChildren =
      c.flowChildren.modify report.flowId fun rows =>
        rows.modify report.childKey fun _ => reportRow row report := by
  unfold Core.applyReport
  simp only
  split
  · rfl
  · split <;> rfl

/-! ## The steps at one job id -/

/-- What the store holds under one job id. -/
structure View (V : Type) where
  job : Option (MemJob V)
  rows : Option (Rows V)

def Core.view (c : Core V) (id : JobId) : View V :=
  ⟨c.jobs.get? id, c.flowChildren.get? id⟩

def View.Keyed (id : JobId) (v : View V) : Prop :=
  ∀ job, v.job = some job → job.id = id

/-- What an elementary step can do to the record and the rows of id `id`. -/
inductive ViewStep (id : JobId) : Label V → View V → View V → Prop
  | same (l : Label V) (v : View V) : ViewStep id l v v
  | insert (request : EnqueueRequest V) (now : Millis) (seq : ℕ) (rows? : Option (Rows V)) :
      ViewStep id (.insert id request now seq) ⟨none, rows?⟩
        ⟨some (newJob id request now seq), rows?⟩
  | promote {job : MemJob V} (now : Millis) (rows? : Option (Rows V)) (h : job.state = .delayed)
      (hr : job.runAt ≤ now) :
      ViewStep id (.promoteDue now) ⟨some job, rows?⟩ ⟨some { job with state := .waiting }, rows?⟩
  | move {job : MemJob V} (m : Move V) (rows? : Option (Rows V)) (h : m.Enabled job) :
      ViewStep id (.move id m) ⟨some job, rows?⟩ ⟨some (m.apply job), rows?⟩
  | finish {job : MemJob V} (e : Ending V) (now : Millis) (rows? : Option (Rows V))
      (h : e.Enabled job) (hw : job.state ≠ .waitingChildren) :
      ViewStep id (.finish id e now) ⟨some job, rows?⟩ ⟨some (endJob job now e), rows?⟩
  | settle {job : MemJob V} (e : Ending V) (now : Millis) (rows? : Option (Rows V))
      (h : e.Enabled job) (hw : job.state = .waitingChildren) :
      ViewStep id (.finish id e now) ⟨some job, rows?⟩
        ⟨some (endJob { job with
            flow := job.flow.map fun flow => settledFlow flow (pendingRows rows?) } now e),
          rows?.map fun rows => rows.mapValues fun _ => markRow⟩
  | fanOut {job : MemJob V} (failFast : Bool) (children : List (FlowChildSpec V)) (now : Millis)
      (rows? : Option (Rows V)) (h : job.state = .active) (hf : job.flow = none) :
      ViewStep id (.park id failFast children now) ⟨some job, rows?⟩
        ⟨some (parkJob job now ⟨failFast, children.length, 0, 0, 0⟩),
          some (newRows id now children)⟩
  | refan {job : MemJob V} {flow : FlowState} (failFast : Bool)
      (children : List (FlowChildSpec V)) (now : Millis) (rows? : Option (Rows V))
      (h : job.state = .active) (hf : job.flow = some flow) :
      ViewStep id (.park id failFast children now) ⟨some job, rows?⟩
        ⟨some (parkJob job now flow), rows?⟩
  | report {rows : Rows V} {row : MemFlowChild V} (job? : Option (MemJob V))
      (report : FlowChildReport V) (h : report.flowId = id)
      (hrow : rows.get? report.childKey = some row) (hp : row.status = .pending) :
      ViewStep id (.report report) ⟨job?, some rows⟩
        ⟨job?.map (countReport report),
          some (rows.modify report.childKey fun _ => reportRow row report)⟩
  | remove {job : MemJob V} (rows? : Option (Rows V)) (ha : job.state ≠ .active)
      (hw : job.state ≠ .waitingChildren) :
      ViewStep id (.remove id) ⟨some job, rows?⟩ ⟨none, none⟩
  | prune (v : View V) (ht : ∀ job, v.job = some job → job.state.isTerminal) :
      ViewStep id (.prune id) v ⟨none, none⟩
  | rearm (job? : Option (MemJob V)) (rows : Rows V) (childKey : String) (now : Millis) :
      ViewStep id (.rearm id childKey now) ⟨job?, some rows⟩
        ⟨job?, some (rows.modify childKey fun row => { row with pendingSince := now })⟩
  | cascade (job? : Option (MemJob V)) (rows : Rows V) (childKey : String) :
      ViewStep id (.cascade id childKey) ⟨job?, some rows⟩
        ⟨job?, some (rows.modify childKey fun row => { row with cascaded := true })⟩

theorem putJob_view (c : Core V) (job : MemJob V) (id : JobId) :
    (c.putJob job).view id =
      if id = job.id then ⟨some job, c.flowChildren.get? id⟩ else c.view id := by
  unfold Core.view
  rw [putJob_get?, putJob_flowChildren]
  split <;> rfl

theorem deleteJob_view (c : Core V) (id id' : JobId) :
    (c.deleteJob id').view id = if id = id' then ⟨none, none⟩ else c.view id := by
  unfold Core.view Core.deleteJob
  simp only [JsMap.get?_delete]
  split <;> rfl

theorem modifyRow_view (c : Core V) (flowId : JobId) (childKey : String)
    (f : MemFlowChild V → MemFlowChild V) (id : JobId) :
    (c.modifyRow flowId childKey f).view id =
      if id = flowId then
        ⟨c.jobs.get? id, (c.flowChildren.get? id).map fun rows => rows.modify childKey f⟩
      else c.view id := by
  unfold Core.view Core.modifyRow
  rw [JsMap.get?_modify]
  by_cases hid : id = flowId
  · subst hid
    rw [if_pos rfl, if_pos rfl]
  · rw [if_neg hid, if_neg hid]

theorem finish_view (c : Core V) (job : MemJob V) (e : Ending V) (now : Millis) (id : JobId) :
    (c.finish job e now).view id =
      if id = job.id then
        ⟨some (endJob { job with flow := c.settledFlow? job } now e),
          (c.settledRows job).flowChildren.get? id⟩
      else c.view id := by
  unfold Core.view
  rw [finish_get?, finish_flowChildren]
  by_cases hid : id = job.id
  · rw [if_pos hid, if_pos hid]
  · rw [if_neg hid, if_neg hid, Core.settledRows]
    split
    · rw [markPendingRowsCancelled_get?, if_neg hid]
    · rfl

theorem Step.view {c c' : Core V} {l : Label V} (h : Step c l c') (hk : c.Keyed) (id : JobId) :
    ViewStep id l (c.view id) (c'.view id) := by
  cases h with
  | @insert id' request now seq hnone =>
    rw [putJob_view]
    by_cases hid : id = id'
    · subst hid
      rw [if_pos (show id = (newJob id request now seq).id from rfl), Core.view, hnone]
      exact .insert request now seq _
    · rw [if_neg (show id ≠ (newJob id' request now seq).id from hid)]
      exact .same _ _
  | promoteDue now =>
    unfold Core.view
    simp only [JsMap.get?_mapValues]
    cases hj : c.jobs.get? id with
    | none => exact .same _ _
    | some job =>
      rw [Option.map_some, promoted]
      split
      · rename_i hd
        exact .promote now _ hd.1 hd.2
      · exact .same _ _
  | @move id' job m hj hm =>
    obtain rfl := hk _ _ hj
    rw [putJob_view, Move.apply_id]
    by_cases hid : id = job.id
    · subst hid
      rw [if_pos rfl, Core.view, hj]
      exact .move m _ hm
    · rw [if_neg hid]
      exact .same _ _
  | @finish id' job e now hj he =>
    obtain rfl := hk _ _ hj
    rw [finish_view]
    by_cases hid : id = job.id
    · subst hid
      rw [if_pos rfl, Core.settledFlow?, Core.settledRows, Core.view, hj]
      by_cases hw : job.state = .waitingChildren
      · rw [if_pos hw, if_pos hw, markPendingRowsCancelled_get?, if_pos rfl]
        exact .settle e now _ he hw
      · rw [if_neg hw, if_neg hw]
        exact .finish e now _ he hw
    · rw [if_neg hid]
      exact .same _ _
  | @park id' job failFast children now hj ha =>
    obtain rfl := hk _ _ hj
    rw [Core.park, putJob_view]
    by_cases hid : id = job.id
    · subst hid
      rw [if_pos (show job.id = (parkJob job now _).id from rfl), Core.fanOutRows, manifest,
        Core.view, hj]
      cases hf : job.flow with
      | none =>
        have hview := @ViewStep.fanOut V job.id job failFast children now
          (c.flowChildren.get? job.id) ha hf
        simpa using hview
      | some flow => exact .refan failFast children now _ ha hf
    · rw [if_neg (show id ≠ (parkJob job now _).id from hid), Core.fanOutRows]
      split
      · exact .same _ _
      · unfold Core.view
        rw [JsMap.get?_set, if_neg hid]
        exact .same _ _
  | @report row report hrow hp =>
    unfold Core.view
    rw [applyReport_get? c row report hk, applyReport_flowChildren, JsMap.get?_modify]
    by_cases hid : id = report.flowId
    · subst hid
      obtain ⟨rows, hrows, hrow⟩ := Option.bind_eq_some_iff.mp hrow
      rw [if_pos rfl, if_pos rfl, hrows]
      exact .report _ report rfl hrow hp
    · rw [if_neg hid, if_neg hid]
      exact .same _ _
  | @remove id' job hj ha hw =>
    rw [deleteJob_view]
    by_cases hid : id = id'
    · subst hid
      rw [if_pos rfl, Core.view, hj]
      exact .remove _ ha hw
    · rw [if_neg hid]
      exact .same _ _
  | @prune id' ht ho =>
    rw [deleteJob_view]
    by_cases hid : id = id'
    · subst hid
      rw [if_pos rfl]
      exact .prune _ ht
    · rw [if_neg hid]
      exact .same _ _
  | rearm flowId childKey now =>
    rw [modifyRow_view]
    by_cases hid : id = flowId
    · subst hid
      rw [if_pos rfl, Core.view]
      cases c.flowChildren.get? id with
      | none => exact .same _ _
      | some rows => exact .rearm _ rows childKey now
    · rw [if_neg hid]
      exact .same _ _
  | cascade flowId childKey =>
    rw [modifyRow_view]
    by_cases hid : id = flowId
    · subst hid
      rw [if_pos rfl, Core.view]
      cases c.flowChildren.get? id with
      | none => exact .same _ _
      | some rows => exact .cascade _ rows childKey
    · rw [if_neg hid]
      exact .same _ _
  | dropOutbox => exact .same _ _

theorem ViewStep.keyed {id : JobId} {l : Label V} {v v' : View V} (h : ViewStep id l v v')
    (hv : v.Keyed id) : v'.Keyed id := by
  intro job hb
  cases h with
  | same => exact hv job hb
  | insert =>
    cases hb
    rfl
  | move m =>
    have h := hv _ rfl
    cases hb
    rw [Move.apply_id, h]
  | finish | settle =>
    have h := hv _ rfl
    cases hb
    rw [endJob_id]
    exact h
  | promote | fanOut | refan =>
    have h := hv _ rfl
    cases hb
    exact h
  | report =>
    obtain ⟨parent, hp, rfl⟩ := Option.map_eq_some_iff.mp hb
    exact hv parent hp
  | remove | prune => cases hb
  | rearm | cascade => exact hv job hb

theorem Step.keyed {c c' : Core V} {l : Label V} (h : Step c l c') (hk : c.Keyed) : c'.Keyed :=
  fun id => (h.view hk id).keyed (hk id)

theorem Does.keyed {P : Label V → Prop} {c c' : Core V} (h : Does P c c') (hk : c.Keyed) :
    c'.Keyed := by
  obtain ⟨ls, hr, _⟩ := h
  exact hr.preserves (fun _ _ _ hs hk => hs.keyed hk) hk

/-- The invariant rule for facts about one id: a chain keeps what each of its steps keeps there. -/
theorem Does.view {P : Label V → Prop} {c c' : Core V} (h : Does P c c') (hk : c.Keyed)
    (id : JobId) {I : View V → Prop}
    (hstep : ∀ l v v', P l → ViewStep id l v v' → v.Keyed id → I v → I v') (hI : I (c.view id)) :
    I (c'.view id) := by
  obtain ⟨ls, hr, hl⟩ := h
  induction hr with
  | refl => exact hI
  | @cons c d e l ls hs _ ih =>
    have hd := hstep l _ _ (hl l (by simp)) (hs.view hk id) (hk id) hI
    exact ih (hs.keyed hk) hd fun l' h' => hl l' (by simp [h'])

/-- A chain whose steps keep `I` at one id until one of them reaches `E` there. -/
theorem Does.passes {P : Label V → Prop} {c c' : Core V} (h : Does P c c') (hk : c.Keyed)
    (id : JobId) {I E : View V → Prop}
    (hstep : ∀ l v v', P l → ViewStep id l v v' → v.Keyed id → I v → I v' ∨ E v')
    (hI : I (c.view id)) : I (c'.view id) ∨ ∃ d, Does P c d ∧ Does P d c' ∧ E (d.view id) := by
  obtain ⟨ls, hr, hl⟩ := h
  induction hr with
  | refl => exact .inl hI
  | @cons c d e l ls hs hr ih =>
    have hfirst : Does P c d := .single hs (hl l (by simp))
    have hrest : ∀ l' ∈ ls, P l' := fun l' h' => hl l' (by simp [h'])
    rcases hstep l _ _ (hl l (by simp)) (hs.view hk id) (hk id) hI with hd | hd
    · rcases ih (hs.keyed hk) hd hrest with he | ⟨f, hf, hf', hE⟩
      · exact .inl he
      · exact .inr ⟨f, hfirst.trans hf, hf', hE⟩
    · exact .inr ⟨d, hfirst, ⟨ls, hr, hrest⟩, hd⟩

end EffectMq.Memory
