import EffectMq.Library.Transition
import EffectMq.RedisJobStore.FlowScripts
import EffectMq.RedisJobStore.Indexes

/-! # Elementary steps of the Redis driver

What a script can do to the hash of one job, said once. A `Change` rewrites a hash, adds to its ledger
and relists it; beside it stand the insert and the removal of a hash. Every script is a chain of such
steps (`Decompose.lean`), so an invariant of the hashes is proved for the steps alone.
-/

namespace EffectMq.Redis
set_option autoImplicit false
set_option maxHeartbeats 250000

open Indexes Transition

variable {V : Type}

/-! ## Changes of one hash -/

/-- How a job enters a terminal state. -/
inductive Ending (V : Type)
  | complete (exit : Option V)
  | fail (exit : Option V)
  | ackCancelled
  | cancelActive
  | cancelIdle
  | stalled
  | failFast (childKey : String)

def Ending.outcome : Ending V → TerminalState
  | .complete _ => .completed
  | .fail _ | .stalled | .failFast _ => .failed
  | .ackCancelled | .cancelActive | .cancelIdle => .cancelled

inductive Change (V : Type)
  | replace (request : EnqueueRequest V) (now : ℤ)
  | promoteDue
  | promote (now : ℤ)
  | claim (options : ClaimOptions) (now : ℤ)
  | extend (expiresAt : ℤ)
  | requestCancel
  | requeue (delayMs : ℤ) (exit : Option V) (now : ℤ) (seq : ℕ)
  | release
  | stall (now : ℤ)
  | retry (now : ℤ) (seq : ℕ)
  | resume (now : ℤ) (seq : ℕ)
  | count (outcome : TerminalState)
  | settle (marked : ℕ)
  | park (flow : FlowState) (now : ℤ)
  | land (flow : FlowState) (now : ℤ) (seq : ℕ)
  | cancelFanOut (flow : FlowState) (now : ℤ)
  | finish (e : Ending V) (now : ℤ)

def unlocked (job : JobHash V) : JobHash V := { job with lockToken := "", lockExpiresAt := none }

/-- The hash right after a terminal transition. -/
def endHash (job : JobHash V) (now : ℤ) : Ending V → JobHash V
  | .complete exit =>
    { unlocked job with
      attemptsMade := job.attemptsMade + 1, state := .completed, finishedAt := some now,
      cancelRequested := false, exit }
  | .fail exit =>
    { unlocked job with
      attemptsMade := job.attemptsMade + 1, state := .failed, finishedAt := some now,
      cancelRequested := false, exit }
  | .ackCancelled =>
    { unlocked job with
      attemptsMade := job.attemptsMade + 1, state := .cancelled, finishedAt := some now,
      cancelRequested := false }
  | .cancelActive =>
    { unlocked job with state := .cancelled, finishedAt := some now, cancelRequested := false }
  | .cancelIdle => { job with state := .cancelled, finishedAt := some now, cancelRequested := false }
  | .stalled =>
    { unlocked job with
      stalledCount := job.stalledCount + 1, state := .failed, finishedAt := some now,
      failedReason := stalledReason }
  | .failFast childKey =>
    { job with
      state := .failed, finishedAt := some now, cancelRequested := false,
      failedReason := failFastReason childKey }

def Change.apply (job : JobHash V) : Change V → JobHash V
  | .replace request now => replaceHash job request now
  | .promoteDue => { job with state := .waiting }
  | .promote now => { job with state := .waiting, runAt := now }
  | .claim options now => claimHash job options now
  | .extend expiresAt => { job with lockExpiresAt := some expiresAt }
  | .requestCancel => { job with cancelRequested := true }
  | .requeue delayMs _ now seq =>
    { unlocked job with
      attemptsMade := job.attemptsMade + 1
      state := if 0 < max 0 delayMs then .delayed else .waiting
      seq, runAt := now + max 0 delayMs }
  | .release => { unlocked job with state := .waiting }
  | .stall _ => { unlocked job with stalledCount := job.stalledCount + 1, state := .waiting }
  | .retry now seq => retryHash job now seq
  | .resume now seq => { job with state := .waiting, runAt := now, seq }
  | .count outcome => { job with flow := job.flow.map fun flow => countOutcome flow outcome }
  | .settle marked =>
    { job with
      flow := job.flow.map fun flow => { flow with pending := 0, cancelled := flow.cancelled + marked } }
  | .park flow _ => { unlocked job with flow := some flow, state := .waitingChildren }
  | .land flow now seq =>
    { unlocked job with flow := some flow, state := .waiting, runAt := now, seq }
  | .cancelFanOut flow now =>
    { unlocked job with
      flow := some flow, state := .cancelled, finishedAt := some now, cancelRequested := false }
  | .finish e now => endHash job now e

/-- What a change adds to the ledger: outcome, time and exit. -/
def Change.outcomes : Change V → List (AttemptOutcome × ℤ × Option V)
  | .requeue _ exit now _ => [(.retried, now, exit)]
  | .stall now => [(.stalled, now, none)]
  | .park _ now | .land _ now _ => [(.fannedOut, now, none)]
  | .cancelFanOut _ now => [(.fannedOut, now, none), (.cancelled, now, none)]
  | .finish (.complete exit) now => [(.completed, now, exit)]
  | .finish (.fail exit) now => [(.failed, now, exit)]
  | .finish .stalled now => [(.stalled, now, none)]
  | .finish (.failFast _) now => [(.failed, now, none)]
  | .finish _ now => [(.cancelled, now, none)]
  | _ => []

def appendOutcome (startedAt : Option ℤ) (attempts : List (AttemptRecord V))
    (entry : AttemptOutcome × ℤ × Option V) : List (AttemptRecord V) :=
  attempts ++ [{ attempt := attempts.length + 1, startedAt, finishedAt := entry.2.1,
                 outcome := entry.1, exit := entry.2.2 }]

def Change.ledger (job : JobHash V) (attempts : List (AttemptRecord V)) (c : Change V) :
    List (AttemptRecord V) :=
  c.outcomes.foldl (appendOutcome job.processedAt) attempts

def Ending.Enabled (job : JobHash V) : Ending V → Prop
  | .complete _ | .fail _ | .ackCancelled | .cancelActive => job.state = .active
  | .cancelIdle => job.state = .waiting ∨ job.state = .delayed ∨ job.state = .waitingChildren
  | .stalled => job.state = .active ∧ job.cancelRequested = false
  | .failFast _ => job.state = .waitingChildren

def Change.Enabled (job : JobHash V) : Change V → Prop
  | .replace _ _ | .promoteDue | .promote _ => job.state = .delayed
  | .claim _ _ => job.state = .waiting
  | .extend _ | .requeue _ _ _ _ | .release | .stall _ =>
    job.state = .active ∧ job.cancelRequested = false
  | .requestCancel | .cancelFanOut _ _ => job.state = .active
  | .retry _ _ => job.state = .failed
  | .resume _ _ => job.state = .waitingChildren ∧ ∃ flow, job.flow = some flow ∧ flow.pending = 0
  | .count _ | .settle _ => True
  | .park flow _ => job.state = .active ∧ job.cancelRequested = false ∧ 0 < flow.pending
  | .land flow _ _ => job.state = .active ∧ job.cancelRequested = false ∧ flow.pending = 0
  | .finish e _ => e.Enabled job

/-- What a change leaves of a hash. -/
theorem Change.keeps (job : JobHash V) (c : Change V) :
    (c.apply job).id = job.id ∧ (c.apply job).name = job.name ∧ (c.apply job).queue = job.queue ∧
      (c.apply job).enqueuedAt = job.enqueuedAt ∧ (c.apply job).parent = job.parent ∧
      (c.apply job).dedupeKey = job.dedupeKey := by
  cases c with
  | finish e now => cases e <;> exact ⟨rfl, rfl, rfl, rfl, rfl, rfl⟩
  | _ => exact ⟨rfl, rfl, rfl, rfl, rfl, rfl⟩

/-- A change makes a time for every state that is listed by one. -/
theorem Change.stamped {job : JobHash V} (h : job.Stamped) (c : Change V) : (c.apply job).Stamped := by
  cases c with
  | finish e now =>
    cases e <;> exact ⟨fun hs => by simp [Change.apply, endHash] at hs, fun _ => rfl⟩
  | replace | requestCancel | count | settle => exact ⟨h.locked, h.finished⟩
  | extend => exact ⟨fun _ => rfl, h.finished⟩
  | claim options now =>
    exact ⟨fun _ => rfl, fun hs => by simp [Change.apply, claimHash, JobState.isTerminal] at hs⟩
  | requeue delayMs exit now seq =>
    refine ⟨fun hs => ?_, fun hs => ?_⟩
    · simp only [Change.apply] at hs
      split at hs <;> cases hs
    · simp only [Change.apply] at hs
      split at hs <;> cases hs
  | cancelFanOut => exact ⟨fun hs => by simp [Change.apply] at hs, fun _ => rfl⟩
  | _ =>
    refine ⟨fun hs => ?_, fun hs => ?_⟩
    · simp [Change.apply, retryHash] at hs
    · simp [Change.apply, retryHash, JobState.isTerminal] at hs

/-! ## What a change does to the keyspace -/

variable {indexes : IndexConfig}

/-- A change lands: the hash, its ledger, its counters and its places. A number is kept or a new one. -/
structure Moves (indexes : IndexConfig) (ks ks' : Keyspace V) (id : JobId) (job : JobHash V)
    (c : Change V) : Prop where
  jobs : ∀ id', ks'.jobs.get? id' = if id' = id then some (c.apply job) else ks.jobs.get? id'
  listing : ks'.all = ks.all ∧ ks'.byname = ks.byname ∧ ks'.byqueue = ks.byqueue
  home : ∀ key, key.isHome → ks'.index key =
    (ks.index key).swap (job.listed indexes id key) ((c.apply job).listed indexes id key)
  counts : ks'.counts = (countsMove ks job.queue job.state (c.apply job).state).counts
  attempts : ks'.attempts = upd ks.attempts id (c.ledger job (ks.attempts id))
  seq : ks.seq ≤ ks'.seq
  number : (c.apply job).seq = job.seq ∨ ks.seq < (c.apply job).seq ∧ (c.apply job).seq ≤ ks'.seq

theorem counts_countsMove (ks : Keyspace V) (queue : QueueName) (state state' : JobState)
    (q : QueueName) (st : JobState) :
    (countsMove ks queue state state').counts q st + (if queue = q ∧ state = st then 1 else 0) =
      ks.counts q st + if queue = q ∧ state' = st then 1 else 0 := by
  simp only [countsMove, countsAdd, upd_apply]
  by_cases hq : q = queue
  · subst hq
    simp only [if_true, true_and, upd_apply]
    split_ifs <;> subst_vars <;> first | omega | simp_all
  · simp [hq, Ne.symm hq]

theorem weight_some (queue : QueueName) (state : JobState) (job : JobHash V) :
    JsMap.weight (inState queue state) (some job) =
      if job.queue = queue ∧ job.state = state then 1 else 0 := by
  simp [JsMap.weight, inState]

theorem Moves.writes {ks ks' : Keyspace V} {id : JobId} {job : JobHash V} {c : Change V}
    (h : Consistent indexes ks) (hjob : ks.jobs.get? id = some job)
    (hm : Moves indexes ks ks' id job c) : Writes indexes ks ks' id := by
  obtain ⟨hid, hname, hqueue, henqueued, -, -⟩ := c.keeps job
  have hjob' : ks'.jobs.get? id = some (c.apply job) := by rw [hm.jobs, if_pos rfl]
  refine ⟨fun id' hne => by rw [hm.jobs, if_neg hne], fun key => ?_, fun q st => ?_, hm.seq, ?_⟩
  · rw [hjob, hjob', entryOf_some, entryOf_some]
    by_cases hkey : key.isHome = true
    · exact hm.home key hkey
    · have hsame : (c.apply job).listed indexes id key = job.listed indexes id key := by
        cases key <;> simp_all [IndexKey.isHome, JobHash.listed]
      have hindex : ks'.index key = ks.index key := by
        obtain ⟨hall, hbyname, hbyqueue⟩ := hm.listing
        cases key <;> simp_all [IndexKey.isHome, Keyspace.index]
      have hself := h.lists.swap_self id key
      rw [hjob, entryOf_some] at hself
      rw [hsame, hindex, hself]
  · rw [hjob, hjob', hm.counts, weight_some, weight_some, hqueue]
    push_cast
    exact counts_countsMove ks job.queue job.state (c.apply job).state q st
  · intro job' h'
    rw [hjob'] at h'
    obtain rfl := Option.some.inj h'
    obtain ⟨hkeyed, hstamped, hseq⟩ := h.sound id job hjob
    refine ⟨hid.trans hkeyed, c.stamped hstamped, ?_⟩
    rcases hm.number with hkept | ⟨-, hdrawn⟩
    · rw [hkept]
      exact hseq.trans hm.seq
    · exact hdrawn

/-! ## Labelled steps -/

inductive Label (V : Type)
  | quiet
  | insert (id : JobId) (request : EnqueueRequest V) (dedupeKey : String) (now : ℤ)
  | change (id : JobId) (c : Change V)
  | remove (id : JobId)
  | prune (id : JobId)

inductive Step (indexes : IndexConfig) : Keyspace V → Label V → Keyspace V → Prop
  | quiet {ks ks' : Keyspace V} (hq : Quiet ks ks') (ha : ks'.attempts = ks.attempts) :
      Step indexes ks .quiet ks'
  | insert {ks ks' : Keyspace V} {id : JobId} (request : EnqueueRequest V) (dedupeKey : String)
      (now : ℤ) (hnone : ks.jobs.get? id = none)
      (hjob : ks'.jobs.get? id = some (jobHash id request dedupeKey now ks'.seq))
      (hseq : ks.seq < ks'.seq) (hw : Writes indexes ks ks' id) (ha : ks'.attempts = ks.attempts) :
      Step indexes ks (.insert id request dedupeKey now) ks'
  | change {ks ks' : Keyspace V} {id : JobId} {job : JobHash V} (c : Change V)
      (hjob : ks.jobs.get? id = some job) (hc : c.Enabled job) (hm : Moves indexes ks ks' id job c) :
      Step indexes ks (.change id c) ks'
  | remove {ks ks' : Keyspace V} {id : JobId} {job : JobHash V} (hjob : ks.jobs.get? id = some job)
      (hidle : job.state ≠ .active ∧ job.state ≠ .waitingChildren)
      (hnone : ks'.jobs.get? id = none) (hw : Writes indexes ks ks' id)
      (ha : ks'.attempts = upd ks.attempts id []) : Step indexes ks (.remove id) ks'
  | prune {ks ks' : Keyspace V} {id : JobId} {job : JobHash V} (hjob : ks.jobs.get? id = some job)
      (hterminal : job.state.isTerminal = true) (hnone : ks'.jobs.get? id = none)
      (hw : Writes indexes ks ks' id) (ha : ks'.attempts = upd ks.attempts id []) : Step indexes ks (.prune id) ks'

theorem Step.consistent {ks ks' : Keyspace V} {l : Label V} (hs : Step indexes ks l ks')
    (h : Consistent indexes ks) : Consistent indexes ks' := by
  cases hs with
  | quiet hq => exact h.quiet hq
  | insert _ _ _ _ _ _ hw => exact h.write hw
  | change c hjob hc hm => exact h.write (hm.writes h hjob)
  | remove _ _ _ hw => exact h.write hw
  | prune _ _ _ hw => exact h.write hw

/-- `ks'` is reached from `ks` by elementary steps whose labels all satisfy `P`. -/
def Does (indexes : IndexConfig) (P : Label V → Prop) (ks ks' : Keyspace V) : Prop :=
  ∃ ls, Run (Step indexes) ks ls ks' ∧ ∀ l ∈ ls, P l

section Does

variable {P : Label V → Prop} {ks ks' ks'' : Keyspace V}

theorem Does.refl (P : Label V → Prop) (ks : Keyspace V) : Does indexes P ks ks :=
  ⟨[], .refl ks, by simp⟩

theorem Does.single {l : Label V} (h : Step indexes ks l ks') (hl : P l) : Does indexes P ks ks' :=
  ⟨[l], .single h, by simpa using hl⟩

theorem Does.trans (h : Does indexes P ks ks') (h' : Does indexes P ks' ks'') : Does indexes P ks ks'' := by
  obtain ⟨ls, hr, hl⟩ := h
  obtain ⟨ls', hr', hl'⟩ := h'
  refine ⟨ls ++ ls', hr.trans hr', ?_⟩
  intro l hm
  rcases List.mem_append.mp hm with hm | hm
  · exact hl l hm
  · exact hl' l hm

theorem Does.mono {Q : Label V → Prop} (hPQ : ∀ l, P l → Q l) (h : Does indexes P ks ks') : Does indexes Q ks ks' := by
  obtain ⟨ls, hr, hl⟩ := h
  exact ⟨ls, hr, fun l hm => hPQ l (hl l hm)⟩

theorem Does.consistent (h : Does indexes P ks ks') (hc : Consistent indexes ks) : Consistent indexes ks' := by
  obtain ⟨ls, hr, -⟩ := h
  exact hr.preserves (fun _ _ _ hs => hs.consistent) hc

/-- The invariant rule: a chain keeps what each of its steps keeps. -/
theorem Does.preserves {I : Keyspace V → Prop} (h : Does indexes P ks ks')
    (hstep : ∀ ks l ks', P l → Step indexes ks l ks' → I ks → I ks') (hI : I ks) : I ks' := by
  obtain ⟨ls, hr, hl⟩ := h
  induction hr with
  | refl => exact hI
  | @cons ks ks₁ ks₂ l ls hs hr ih =>
    exact ih (hstep ks l ks₁ (hl l (by simp)) hs hI) fun l' hl' => hl l' (by simp [hl'])

/-- A fold whose every iteration is a chain from a consistent keyspace. -/
theorem Does.foldl {α β : Type} (left : β → Keyspace V) (f : β → α → β) (as : List α)
    {I : Keyspace V → Prop}
    (hstep : ∀ b, ∀ a ∈ as, Consistent indexes (left b) → I (left b) →
      Does indexes P (left b) (left (f b a)) ∧ I (left (f b a))) (b : β) (hb : Consistent indexes (left b))
    (hI : I (left b)) : Does indexes P (left b) (left (as.foldl f b)) := by
  induction as generalizing b with
  | nil => exact .refl P _
  | cons a as ih =>
    obtain ⟨hfirst, hI'⟩ := hstep b a List.mem_cons_self hb hI
    exact hfirst.trans (ih (fun b a' ha' => hstep b a' (List.mem_cons_of_mem a ha')) (f b a)
      (hfirst.consistent hb) hI')

end Does

end EffectMq.Redis
