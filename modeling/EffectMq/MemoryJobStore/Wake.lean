import EffectMq.MemoryJobStore.Enqueue

/-! # No lost wake-ups

A claim that finds nothing hands out the wake version of its store, and `awaitWake` parks a caller
only while the watched queues have no later mark. `Rouses` is what a piece of the service does to the
jobs and the marks together: a job that is waiting or delayed afterwards was so before, or its queue
carries a mark later than the wake version from before. It composes, every operation is a case of it
(`exec_rouses`), and `no_lost_wake` reads it off a whole run.
-/

namespace EffectMq.Memory
set_option autoImplicit false
set_option maxHeartbeats 250000

open Transition

variable {V : Type}

/-! ## Marks -/

/-- The wake-up book-keeping of a store. -/
structure Signals where
  paused : List QueueName
  wakeVersion : ℕ
  lastBroadcast : ℕ
  lastWake : JsMap QueueName ℕ
  waiters : List Waiter
  nextWaiter : ℕ

def Store.signals (s : Store V) : Signals where
  paused := s.paused
  wakeVersion := s.wakeVersion
  lastBroadcast := s.lastBroadcast
  lastWake := s.lastWake
  waiters := s.waiters
  nextWaiter := s.nextWaiter

theorem signals_withCore (s : Store V) (c : Core V) : { s with toCore := c }.signals = s.signals :=
  rfl

/-- No mark is ahead of the wake version, and no waiter ahead of the waiter counter. -/
structure WakeInv (s : Store V) : Prop where
  marks : ∀ q, lastWakeFor s q ≤ s.wakeVersion
  waiters : ∀ w ∈ s.waiters, w.id < s.nextWaiter

/-- A mark of `q` that is later than every mark of `s`. -/
def Woken (s t : Store V) (q : QueueName) : Prop := s.wakeVersion < lastWakeFor t q

def MemJob.Queued (job : MemJob V) : Prop := job.state = .waiting ∨ job.state = .delayed

/-- The same place in the same queue; a delayed job may have been promoted at a reading in `P`. -/
structure Stays (P : Millis → Prop) (job job' : MemJob V) : Prop where
  queue : job'.queue = job.queue
  name : job'.name = job.name
  runAt : job'.runAt = job.runAt
  state : job'.state = job.state ∨
    job.state = .delayed ∧ job'.state = .waiting ∧ ∃ now, P now ∧ job.runAt ≤ now

structure Rouses (P : Millis → Prop) (s t : Store V) : Prop where
  version : s.wakeVersion ≤ t.wakeVersion
  marks : ∀ q, lastWakeFor s q ≤ lastWakeFor t q
  nextWaiter : s.nextWaiter ≤ t.nextWaiter
  waiters : ∀ w ∈ t.waiters, w ∈ s.waiters ∨ s.nextWaiter ≤ w.id
  resolved : ∀ q, lastWakeFor s q < lastWakeFor t q → ∀ w ∈ t.waiters, q ∈ w.queues →
    s.nextWaiter ≤ w.id
  paused : ∀ q ∈ s.paused, q ∈ t.paused ∨ Woken s t q
  jobs : ∀ id job', t.jobs.get? id = some job' → job'.Queued →
    Woken s t job'.queue ∨ ∃ job, s.jobs.get? id = some job ∧ Stays P job job'
  wakeInv : WakeInv t

theorem Stays.refl (P : Millis → Prop) (job : MemJob V) : Stays P job job :=
  ⟨rfl, rfl, rfl, .inl rfl⟩

theorem Stays.queued {P : Millis → Prop} {job job' : MemJob V} (h : Stays P job job')
    (hq : job'.Queued) : job.Queued := by
  rcases h.state with hst | ⟨hd, _, _⟩
  · unfold MemJob.Queued at hq ⊢
    rwa [← hst]
  · exact .inr hd

theorem Stays.trans {P : Millis → Prop} {a b c : MemJob V} (h : Stays P a b) (h' : Stays P b c) :
    Stays P a c := by
  refine ⟨h'.queue.trans h.queue, h'.name.trans h.name, h'.runAt.trans h.runAt, ?_⟩
  rcases h.state, h'.state with ⟨hst | ⟨hd, hw, hp⟩, hst' | ⟨hd', hw', now, hp', hr'⟩⟩
  · exact .inl (hst'.trans hst)
  · exact .inr ⟨hst.symm.trans hd', hw', now, hp', h.runAt ▸ hr'⟩
  · exact .inr ⟨hd, hst'.trans hw, hp⟩
  · rw [hw] at hd'
    cases hd'

theorem Stays.mono {P Q : Millis → Prop} (hPQ : ∀ now, P now → Q now) {a b : MemJob V}
    (h : Stays P a b) : Stays Q a b :=
  ⟨h.queue, h.name, h.runAt, h.state.imp_right fun ⟨hd, hw, now, hp, hr⟩ =>
    ⟨hd, hw, now, hPQ now hp, hr⟩⟩

theorem lastWakeFor_congr {s t : Store V} (h : t.signals = s.signals) (q : QueueName) :
    lastWakeFor t q = lastWakeFor s q := by
  unfold lastWakeFor
  rw [show t.lastWake = s.lastWake from congrArg Signals.lastWake h,
    show t.lastBroadcast = s.lastBroadcast from congrArg Signals.lastBroadcast h]

/-! ## What composes -/

/-- A piece that sets no mark makes no job waiting or delayed and takes no pause back. -/
theorem Rouses.unmarked {P : Millis → Prop} {s t : Store V} (hm : WakeInv s)
    (hv : t.wakeVersion = s.wakeVersion) (hmark : ∀ q, lastWakeFor t q = lastWakeFor s q)
    (hpaused : ∀ q ∈ s.paused, q ∈ t.paused) (hnext : s.nextWaiter ≤ t.nextWaiter)
    (hwaiters : ∀ w ∈ t.waiters, w ∈ s.waiters ∨ s.nextWaiter ≤ w.id ∧ w.id < t.nextWaiter)
    (hjobs : ∀ id job', t.jobs.get? id = some job' → job'.Queued →
      ∃ job, s.jobs.get? id = some job ∧ Stays P job job') : Rouses P s t := by
  refine ⟨hv.ge, fun q => (hmark q).ge, hnext, fun w hw => (hwaiters w hw).imp_right And.left,
    fun q hlt => ?_, fun q hq => .inl (hpaused q hq),
    fun id job' hj hq => .inr (hjobs id job' hj hq), fun q => ?_, fun w hw => ?_⟩
  · rw [hmark q] at hlt
    exact absurd hlt (lt_irrefl _)
  · rw [hmark q, hv]
    exact hm.marks q
  · rcases hwaiters w hw with hs | ⟨_, hlt⟩
    · exact lt_of_lt_of_le (hm.waiters w hs) hnext
    · exact hlt

theorem Rouses.of_jobs {P : Millis → Prop} {s t : Store V} (hm : WakeInv s)
    (h : t.signals = s.signals)
    (hjobs : ∀ id job', t.jobs.get? id = some job' → job'.Queued →
      ∃ job, s.jobs.get? id = some job ∧ Stays P job job') : Rouses P s t := by
  have hw : t.waiters = s.waiters := congrArg Signals.waiters h
  have hp : t.paused = s.paused := congrArg Signals.paused h
  exact .unmarked hm (congrArg Signals.wakeVersion h) (lastWakeFor_congr h) (fun q hq => hp ▸ hq)
    (congrArg Signals.nextWaiter h).ge (fun w hwt => .inl (hw ▸ hwt)) hjobs

theorem Rouses.refl (P : Millis → Prop) {s : Store V} (hm : WakeInv s) : Rouses P s s :=
  .of_jobs hm rfl fun _ job hj _ => ⟨job, hj, .refl P job⟩

theorem Rouses.trans {P : Millis → Prop} {s t u : Store V} (h : Rouses P s t) (h' : Rouses P t u) :
    Rouses P s u := by
  have hlate : ∀ q, Woken t u q → Woken s u q := fun q hq => lt_of_le_of_lt h.version hq
  have hearly : ∀ q, Woken s t q → Woken s u q := fun q hq => lt_of_lt_of_le hq (h'.marks q)
  refine ⟨h.version.trans h'.version, fun q => (h.marks q).trans (h'.marks q),
    h.nextWaiter.trans h'.nextWaiter, fun w hw => ?_, fun q hlt w hw hq => ?_, fun q hq => ?_,
    fun id job'' hj hq => ?_, h'.wakeInv⟩
  · rcases h'.waiters w hw with hwt | hle
    · exact h.waiters w hwt
    · exact .inr (h.nextWaiter.trans hle)
  · rcases lt_or_ge (lastWakeFor t q) (lastWakeFor u q) with htu | hut
    · exact h.nextWaiter.trans (h'.resolved q htu w hw hq)
    · rcases h'.waiters w hw with hwt | hle
      · exact h.resolved q (lt_of_lt_of_le hlt hut) w hwt hq
      · exact h.nextWaiter.trans hle
  · rcases h.paused q hq with ht | hw
    · exact (h'.paused q ht).imp_right (hlate q)
    · exact .inr (hearly q hw)
  · rcases h'.jobs id job'' hj hq with hw | ⟨job', hj', hs'⟩
    · exact .inl (hlate _ hw)
    · rcases h.jobs id job' hj' (hs'.queued hq) with hw | ⟨job, hj₀, hs⟩
      · rw [hs'.queue]
        exact .inl (hearly _ hw)
      · exact .inr ⟨job, hj₀, hs.trans hs'⟩

theorem Rouses.mono {P Q : Millis → Prop} (hPQ : ∀ now, P now → Q now) {s t : Store V}
    (h : Rouses P s t) : Rouses Q s t :=
  ⟨h.version, h.marks, h.nextWaiter, h.waiters, h.resolved, h.paused, fun id job' hj hq =>
    (h.jobs id job' hj hq).imp_right fun ⟨job, hj₀, hs⟩ => ⟨job, hj₀, hs.mono hPQ⟩, h.wakeInv⟩

/-! ## Signals -/

theorem lastWakeFor_signalWake (s : Store V) (q : QueueName) (queue : Option QueueName) :
    lastWakeFor (signalWake s queue) q =
      match queue with
      | none => max ((s.lastWake.get? q).getD 0) (s.wakeVersion + 1)
      | some q' =>
        if q = q' then max (s.wakeVersion + 1) s.lastBroadcast else lastWakeFor s q := by
  cases queue with
  | none => rfl
  | some q' =>
    simp only [lastWakeFor, signalWake, JsMap.get?_set]
    split <;> rfl

/-- The waiters a signal of `q'` leaves behind do not watch `q'`. -/
theorem mem_signalWake_waiters {s : Store V} {queue : Option QueueName} {w : Waiter}
    (h : w ∈ (signalWake s queue).waiters) :
    w ∈ s.waiters ∧ ∃ q', queue = some q' ∧ q' ∉ w.queues := by
  cases queue with
  | none => cases h
  | some q' =>
    have hmem := List.mem_filter.mp h
    refine ⟨hmem.1, q', rfl, fun hq => ?_⟩
    have hnot := hmem.2
    rw [Bool.not_eq_true', List.contains_eq_mem, decide_eq_false_iff_not] at hnot
    exact hnot hq

theorem WakeInv.signalWake {s : Store V} (hm : WakeInv s) (queue : Option QueueName) :
    WakeInv (signalWake s queue) := by
  constructor
  · intro q
    have hq := hm.marks q
    unfold lastWakeFor at hq
    rw [lastWakeFor_signalWake]
    cases queue with
    | none =>
      show max ((s.lastWake.get? q).getD 0) (s.wakeVersion + 1) ≤ s.wakeVersion + 1
      omega
    | some q' =>
      show (if q = q' then max (s.wakeVersion + 1) s.lastBroadcast else lastWakeFor s q) ≤
        s.wakeVersion + 1
      unfold lastWakeFor
      split <;> omega
  · intro w hw
    have hn : (Memory.signalWake s queue).nextWaiter = s.nextWaiter := by cases queue <;> rfl
    rw [hn]
    exact hm.waiters w (mem_signalWake_waiters hw).1

theorem woken_signalWake (s : Store V) {queue : Option QueueName} {q : QueueName}
    (h : ∀ q', queue = some q' → q' = q) : Woken s (signalWake s queue) q := by
  unfold Woken
  rw [lastWakeFor_signalWake]
  cases queue with
  | none =>
    show s.wakeVersion < max ((s.lastWake.get? q).getD 0) (s.wakeVersion + 1)
    omega
  | some q' =>
    obtain rfl := h q' rfl
    show s.wakeVersion < if q' = q' then max (s.wakeVersion + 1) s.lastBroadcast else _
    rw [if_pos rfl]
    omega

/-- A change of the jobs and the pauses followed by a signal: whatever became runnable is in a
signalled queue. -/
theorem Rouses.signalled {P : Millis → Prop} {s t : Store V} {queue : Option QueueName}
    (hm : WakeInv s) (hsame : { t.signals with paused := s.paused } = s.signals)
    (hpaused : ∀ q ∈ s.paused, q ∈ t.paused ∨ ∀ q', queue = some q' → q' = q)
    (hjobs : ∀ id job', t.jobs.get? id = some job' → job'.Queued →
      (∀ q', queue = some q' → q' = job'.queue) ∨
        ∃ job, s.jobs.get? id = some job ∧ Stays P job job') :
    Rouses P s (signalWake t queue) := by
  have hv : t.wakeVersion = s.wakeVersion := congrArg Signals.wakeVersion hsame
  have hw : t.waiters = s.waiters := congrArg Signals.waiters hsame
  have hn : t.nextWaiter = s.nextWaiter := congrArg Signals.nextWaiter hsame
  have hl : t.lastWake = s.lastWake := congrArg Signals.lastWake hsame
  have hb : t.lastBroadcast = s.lastBroadcast := congrArg Signals.lastBroadcast hsame
  have hmark : ∀ q, lastWakeFor t q = lastWakeFor s q := fun q => by
    unfold lastWakeFor
    rw [hl, hb]
  have hwoken : ∀ q, (∀ q', queue = some q' → q' = q) → Woken s (signalWake t queue) q := by
    intro q hq
    have h := woken_signalWake t hq
    unfold Woken at h ⊢
    rwa [hv] at h
  have hkeep : ∀ q, (∀ q', queue = some q' → q' = q) ∨
      lastWakeFor (signalWake t queue) q = lastWakeFor s q := by
    intro q
    cases queue with
    | none => exact .inl fun q' h => by cases h
    | some q' =>
      by_cases hq : q = q'
      · exact .inl fun q'' h => by rw [← Option.some.inj h, hq]
      · refine .inr ?_
        rw [lastWakeFor_signalWake, ← hmark q]
        exact if_neg hq
  have hmt : WakeInv t := ⟨fun q => hmark q ▸ hv ▸ hm.marks q, hw ▸ hn ▸ hm.waiters⟩
  refine ⟨?_, fun q => ?_, ?_, fun w hwt => ?_, fun q hlt w hwt hq => ?_, fun q hq => ?_,
    fun id job' hj hq => ?_, hmt.signalWake queue⟩
  · rw [← hv]
    cases queue <;> exact Nat.le_succ _
  · rcases hkeep q with hq | hq
    · exact (hm.marks q).trans (hwoken q hq).le
    · exact hq.ge
  · rw [← hn]
    cases queue <;> exact le_rfl
  · exact .inl (hw ▸ (mem_signalWake_waiters hwt).1)
  · obtain ⟨q', rfl, hnot⟩ := (mem_signalWake_waiters hwt).2
    rcases hkeep q with heq | heq
    · rw [heq q' rfl] at hnot
      exact absurd hq hnot
    · rw [heq] at hlt
      exact absurd hlt (lt_irrefl _)
  · rcases hpaused q hq with ht | hall
    · refine .inl ?_
      cases queue <;> exact ht
    · exact .inr (hwoken q hall)
  · rw [signalWake_toCore] at hj
    exact (hjobs id job' hj hq).imp_left (hwoken job'.queue)

/-- The usual case: one record is written and its queue signalled. -/
theorem Rouses.put {P : Millis → Prop} {s t : Store V} (job : MemJob V) (hm : WakeInv s)
    (hsame : t.signals = s.signals) (hjobs : t.jobs = s.jobs.set job.id job) :
    Rouses P s (signalWake t (some job.queue)) := by
  refine .signalled hm ?_ (fun q hq => .inl ?_) fun id job' hj _ => ?_
  · rw [hsame]
    rfl
  · rwa [show t.paused = s.paused from congrArg Signals.paused hsame]
  · rw [hjobs, JsMap.get?_set] at hj
    split at hj
    · cases hj
      exact .inl fun q' h => (Option.some.inj h).symm
    · exact .inr ⟨job', hj, .refl P job'⟩

/-! ## Pieces that make nothing runnable -/

/-- The elementary steps that make no job waiting or delayed. -/
def Label.Quiet (P : Millis → Prop) : Label V → Prop
  | .insert _ _ _ _ => False
  | .promoteDue now => P now
  | .move _ (.claim _ _) | .move _ (.extend _) | .move _ .requestCancel => True
  | .move _ _ => False
  | _ => True

theorem not_queued_of_terminal {job : MemJob V} (h : job.state.isTerminal = true) :
    ¬ job.Queued := by
  rintro (hst | hst) <;> rw [hst] at h <;> cases h

theorem quiet_jobs {P : Millis → Prop} {c c' : Core V} (hk : c.Keyed)
    (h : Does (Label.Quiet P) c c') {id : JobId} {job' : MemJob V}
    (hj : c'.jobs.get? id = some job') (hq : job'.Queued) :
    ∃ job, c.jobs.get? id = some job ∧ Stays P job job' := by
  let I : View V → Prop := fun v => ∀ job', v.job = some job' → job'.Queued →
    ∃ job, c.jobs.get? id = some job ∧ Stays P job job'
  have hI : I (c'.view id) := by
    refine h.view hk id (I := I) (fun l v v' hl hstep _ hv => ?_)
      fun job hj _ => ⟨job, hj, .refl P job⟩
    cases hstep with
    | same | rearm | cascade => exact hv
    | insert => exact hl.elim
    | remove | prune =>
      intro job' hj
      cases hj
    | @promote job now _ hd hr =>
      intro job' hj _
      cases hj
      obtain ⟨job₀, hj₀, hs⟩ := hv job rfl (.inr hd)
      exact ⟨job₀, hj₀, hs.trans ⟨rfl, rfl, rfl, .inr ⟨hd, rfl, now, hl, hr⟩⟩⟩
    | move m _ hm =>
      intro job' hj hq
      cases hj
      cases m with
      | claim | extend | requestCancel =>
        rcases hq with hst | hst <;> simp_all [Move.Enabled, Move.apply, claimJob]
      | _ => exact hl.elim
    | finish e | settle e =>
      intro job' hj hq
      cases hj
      exact absurd hq (not_queued_of_terminal (by rw [endJob_state, isTerminal_toJobState]))
    | fanOut | refan =>
      intro job' hj hq
      cases hj
      rcases hq with hst | hst <;> cases hst
    | @report _ _ job? =>
      intro job' hj hq
      obtain ⟨job, rfl, rfl⟩ := Option.map_eq_some_iff.mp hj
      obtain ⟨job₀, hj₀, hs⟩ := hv job rfl hq
      exact ⟨job₀, hj₀, hs.trans ⟨rfl, rfl, rfl, .inl rfl⟩⟩
  exact hI job' hj hq

theorem Rouses.quiet {P : Millis → Prop} {s t : Store V} (hm : WakeInv s) (hk : s.toCore.Keyed)
    (h : t.signals = s.signals) (hdoes : Does (Label.Quiet P) s.toCore t.toCore) : Rouses P s t :=
  .of_jobs hm h fun _ _ => quiet_jobs hk hdoes

/-! ## Terminal transitions -/

@[simp] theorem releaseDedupe_signals (s : Store V) (job : MemJob V) (now : Millis) :
    (releaseDedupe s job now).signals = s.signals := by
  unfold releaseDedupe
  split
  · rfl
  · simp only
    split
    · rfl
    · split <;> rfl

@[simp] theorem setWindow_signals (s : Store V) (key : String) (now : Millis)
    (ttlMs : Option (WithTop Millis)) : (setWindow s key now ttlMs).signals = s.signals := by
  unfold setWindow
  split <;> rfl

theorem terminate_signals (s : Store V) (job : MemJob V) (outcome : TerminalState) (now : Millis) :
    (s.terminate job outcome now).signals = s.signals :=
  releaseDedupe_signals ..

theorem markCancelled_signals (s : Store V) (job : MemJob V) (now : Millis) :
    (markCancelled s job now).signals = s.signals :=
  terminate_signals ..

theorem deleteUnowed_get? {c : Core V} {ids : List JobId} {id : JobId} {job : MemJob V}
    (h : (c.deleteUnowed ids).jobs.get? id = some job) : c.jobs.get? id = some job := by
  induction ids generalizing c with
  | nil => exact h
  | cons victim ids ih =>
    rw [Core.deleteUnowed, List.foldl_cons] at h
    have h' := ih h
    split at h'
    · exact h'
    · rw [Core.deleteJob, JsMap.get?_delete] at h'
      split at h'
      · cases h'
      · exact h'

theorem applyKeep_get? {c : Core V} {last job : MemJob V} {now : Millis} {id : JobId}
    (h : (c.applyKeep last now).jobs.get? id = some job) : c.jobs.get? id = some job := by
  unfold Core.applyKeep at h
  split at h
  · exact h
  · exact deleteUnowed_get? h

/-- A waiting or delayed job after a terminal transition is another one. -/
theorem terminate_get? {s : Store V} {job job' : MemJob V} {outcome : TerminalState} {now : Millis}
    {id : JobId} (hst : job.state.isTerminal = true)
    (hj : (s.terminate job outcome now).jobs.get? id = some job') (hq : job'.Queued) :
    s.jobs.get? id = some job' := by
  rw [terminate_toCore] at hj
  have hj := applyKeep_get? hj
  rw [appendOutbox_jobs, putJob_get?] at hj
  split at hj
  · cases hj
    exact absurd hq (not_queued_of_terminal hst)
  · exact hj

theorem markCancelled_get? {s : Store V} {job job' : MemJob V} {now : Millis} {id : JobId}
    (hj : (markCancelled s job now).jobs.get? id = some job') (hq : job'.Queued) :
    s.jobs.get? id = some job' := by
  rw [markCancelled_toCore] at hj
  have hj := applyKeep_get? hj
  rw [finish_get?] at hj
  split at hj
  · cases hj
    exact absurd hq (not_queued_of_terminal rfl)
  · exact hj

theorem terminate_rouses {P : Millis → Prop} {s t : Store V} (hm : WakeInv s)
    (hsame : t.signals = s.signals) (hjobs : t.jobs = s.jobs) (job : MemJob V)
    (outcome : TerminalState) (now : Millis) (hst : job.state.isTerminal = true) :
    Rouses P s (t.terminate job outcome now) :=
  .of_jobs hm ((terminate_signals ..).trans hsame) fun _ job' hj hq =>
    ⟨job', hjobs ▸ terminate_get? hst hj hq, .refl P job'⟩

theorem markCancelled_rouses {P : Millis → Prop} {s t : Store V} (hm : WakeInv s)
    (hsame : t.signals = s.signals) (hjobs : t.jobs = s.jobs) (job : MemJob V) (now : Millis) :
    Rouses P s (markCancelled t job now) :=
  .of_jobs hm ((markCancelled_signals ..).trans hsame) fun _ job' hj hq =>
    ⟨job', hjobs ▸ markCancelled_get? hj hq, .refl P job'⟩

theorem cancelJob_rouses {P : Millis → Prop} {s : Store V} (hm : WakeInv s) (now : Millis)
    (id : JobId) : Rouses P s (cancelJob s now id).2 := by
  unfold cancelJob
  split
  · exact .refl P hm
  · rename_i job hj
    split
    · exact markCancelled_rouses hm rfl rfl job now
    · exact markCancelled_rouses hm rfl rfl job now
    · exact markCancelled_rouses hm rfl rfl job now
    · rename_i hst
      refine .of_jobs hm rfl fun id job' hj hq => ?_
      rw [putJob_toCore, putJob_get?] at hj
      split at hj
      · cases hj
        rcases hq with hq | hq <;> cases hst.symm.trans hq
      · exact ⟨job', hj, .refl P job'⟩
    · exact .refl P hm

theorem settleFailFast_rouses {P : Millis → Prop} {s : Store V} (hm : WakeInv s) (now : Millis)
    (parent : MemJob V) (childKey : String) :
    Rouses P s (settleFailFast s now parent childKey) := by
  unfold settleFailFast
  simp only [settleMarkRows_eq]
  exact terminate_rouses hm (signals_withCore s _) (markPendingRowsCancelled_jobs ..) _ _ _ rfl

/-! ## Enqueue -/

theorem insertFresh_rouses {P : Millis → Prop} {s t : Store V} (hm : WakeInv s)
    (hsame : t.signals = s.signals) (hjobs : t.jobs = s.jobs) (now : Millis)
    (request : EnqueueRequest V) (id : JobId) : Rouses P s (insertFresh t now request id) := by
  unfold insertFresh
  simp only
  have hput : Rouses P s (insertJobRecord t id request now) :=
    .put (newJob id request now (t.seq + 1)) hm hsame (by rw [← hjobs]; rfl)
  split
  · exact hput
  · exact hput.trans (.of_jobs hput.wakeInv rfl fun _ job hj _ => ⟨job, hj, .refl P job⟩)

theorem enqueueOne_rouses {P : Millis → Prop} {s : Store V} (hm : WakeInv s)
    (now : Millis) (request : EnqueueRequest V) (ids : IdSource) :
    Rouses P s (enqueueOne s now request ids).2 := by
  have hspec := enqueueOne_spec s now request ids
  generalize (enqueueOne s now request ids).1 = result at hspec
  generalize (enqueueOne s now request ids).2 = t at hspec ⊢
  cases hspec with
  | duplicate | pending | exhausted => exact .refl P hm
  | windowed =>
    split
    · refine .of_jobs hm (setWindow_signals ..) fun id job hj _ => ?_
      rw [setWindow_toCore] at hj
      exact ⟨job, hj, .refl P job⟩
    · exact .refl P hm
  | @replaced _ _ keyed =>
    refine .put (replaceJob keyed request now) hm (setWindow_signals ..) ?_
    rw [setWindow_toCore]
    rfl
  | inserted counter =>
    exact insertFresh_rouses (t := { s with idCounter := counter }) hm rfl rfl now request _

theorem resumeEnqueue_rouses {P : Millis → Prop} {s : Store V} (hm : WakeInv s) (now : Millis)
    (request : EnqueueRequest V) (candidate : JobId) :
    Rouses P s (resumeEnqueue s now request candidate).2 := by
  unfold resumeEnqueue
  split
  · exact .refl P hm
  · exact insertFresh_rouses hm rfl rfl now request candidate

theorem tickSchedule_rouses {P : Millis → Prop} {s : Store V} (hm : WakeInv s) (now : Millis)
    (key : ScheduleKey) (expectedRunAt nextRunAt : Millis) (request : EnqueueRequest V) :
    Rouses P s (tickSchedule s now key expectedRunAt nextRunAt request).2 := by
  unfold tickSchedule
  split
  · exact .refl P hm
  · rename_i id _
    split
    · exact .refl P hm
    · split
      · exact .refl P hm
      · simp only
        split
        · exact .of_jobs hm rfl fun _ job hj _ => ⟨job, hj, .refl P job⟩
        · exact .put (newJob id request now (s.seq + 1)) hm rfl rfl

/-! ## Ack and release -/

theorem makeRunnable_rouses {P : Millis → Prop} {s t : Store V} (hm : WakeInv s)
    (hsame : t.signals = s.signals) (hjobs : t.jobs = s.jobs) (job : MemJob V) (now : Millis) :
    Rouses P s (makeRunnable t job now) :=
  .put { job with state := .waiting, runAt := now, seq := t.seq + 1 } hm hsame
    (by rw [← hjobs]; rfl)

theorem ackFanOut_rouses {P : Millis → Prop} {s : Store V} (hm : WakeInv s) (now : Millis)
    (job : MemJob V) (failFast : Bool) (children : List (FlowChildSpec V)) :
    Rouses P s (ackFanOut s now job failFast children) := by
  unfold ackFanOut
  simp only [openManifest_eq]
  split
  · refine markCancelled_rouses hm (signals_withCore s _) ?_ _ now
    rw [settleMarkRows_jobs, fanOutRows_jobs]
  · split
    · refine .of_jobs hm rfl fun id job' hj hq => ?_
      rw [putJob_toCore, putJob_get?] at hj
      split at hj
      · cases hj
        rcases hq with hq | hq <;> cases hq
      · exact ⟨job', (fanOutRows_jobs ..) ▸ hj, .refl P job'⟩
    · exact makeRunnable_rouses hm (signals_withCore s _) (fanOutRows_jobs ..) _ now

theorem ackOutcome_rouses {P : Millis → Prop} {s : Store V} (hm : WakeInv s) (now : Millis)
    (job : MemJob V) (outcome : AckOutcome V) : Rouses P s (ackOutcome s now job outcome) := by
  unfold ackOutcome
  cases outcome with
  | complete | fail | cancelled => exact terminate_rouses hm rfl rfl _ _ now rfl
  | fanOut failFast children => exact ackFanOut_rouses hm now _ failFast children
  | retry delayMs exit =>
    simp only
    split
    · exact markCancelled_rouses hm rfl rfl _ now
    · exact .put ((Move.requeue delayMs exit now (s.seq + 1)).apply job) hm rfl rfl

theorem ack_rouses {P : Millis → Prop} {s : Store V} (hm : WakeInv s) (now : Millis) (id : JobId)
    (token : String) (outcome : AckOutcome V) : Rouses P s (ack s now id token outcome).2 := by
  cases hres : (ack s now id token outcome).1 with
  | error e =>
    rw [ack_error hres]
    exact .refl P hm
  | ok u =>
    obtain ⟨job, _, _, _, heq⟩ := ack_ok hres
    rw [heq]
    exact ackOutcome_rouses hm now job outcome

theorem release_rouses {P : Millis → Prop} {s : Store V} (hm : WakeInv s) (now : Millis) (id : JobId)
    (token : String) : Rouses P s (release s now id token).2 := by
  unfold release
  split
  · exact .refl P hm
  · rename_i job _
    split
    · exact .refl P hm
    · split
      · exact markCancelled_rouses hm rfl rfl job now
      · exact .put (Move.release.apply job) hm rfl rfl

/-! ## Stall recovery -/

/-- Between the iterations of `recoverStalled` nothing is signalled: the broadcast at the end covers
every job the loop has made waiting. -/
structure Recovering (s : Store V) (acc : List Recovered × Store V) : Prop where
  signals : acc.2.signals = s.signals
  jobs : ∀ id job', acc.2.jobs.get? id = some job' → job'.Queued →
    (∃ entry ∈ acc.1, entry.failed = false) ∨ s.jobs.get? id = some job'

theorem Recovering.recoverJob {s : Store V} {acc : List Recovered × Store V} (h : Recovering s acc)
    (now : Millis) (maxStalledCount : ℤ) (id : JobId) :
    Recovering s (recoverJob now maxStalledCount acc id) := by
  unfold Memory.recoverJob
  simp only
  split
  · exact h
  · rename_i job hj
    split
    · split
      · exact h
      · split
        · exact ⟨(markCancelled_signals ..).trans h.signals, fun id job' hj hq =>
            h.jobs id job' (markCancelled_get? hj hq) hq⟩
        · split
          · refine ⟨(releaseDedupe_signals ..).trans h.signals, fun id job' hj hq => ?_⟩
            rw [releaseDedupe_toCore, appendOutbox_jobs, putJob_toCore, putJob_get?] at hj
            split at hj
            · cases hj
              rcases hq with hq | hq <;> cases hq
            · refine (h.jobs id job' hj hq).imp_left fun hrunnable => ?_
              obtain ⟨entry, hmem, hf⟩ := hrunnable
              exact ⟨entry, List.mem_append_left _ hmem, hf⟩
          · exact ⟨h.signals, fun _ _ _ _ => .inl ⟨_, List.mem_append_right _ (List.mem_singleton_self _), rfl⟩⟩
    · exact h

theorem recoverStalled_rouses {P : Millis → Prop} {s : Store V} (hm : WakeInv s) (now : Millis)
    (maxStalledCount : ℤ) : Rouses P s (recoverStalled s now maxStalledCount).2 := by
  have hfold : ∀ (ids : List JobId) acc, Recovering s acc →
      Recovering s (ids.foldl (recoverJob now maxStalledCount) acc) := by
    intro ids
    induction ids with
    | nil => exact fun acc h => h
    | cons id ids ih => exact fun acc h => ih _ (h.recoverJob now maxStalledCount id)
  have h := hfold s.jobs.keys ([], s) ⟨rfl, fun _ _ hj _ => .inr hj⟩
  unfold recoverStalled
  simp only
  generalize s.jobs.keys.foldl (recoverJob now maxStalledCount) ([], s) = acc at h ⊢
  have hpaused : acc.2.paused = s.paused := congrArg Signals.paused h.signals
  split
  · refine .signalled hm ?_ (fun q hq => .inl ?_) fun id job' _ _ => .inl fun q' h => by cases h
    · rw [h.signals]
      rfl
    · rwa [hpaused]
  · rename_i hnone
    refine .of_jobs hm h.signals fun id job' hj hq => ?_
    rcases h.jobs id job' hj hq with ⟨entry, hmem, hf⟩ | hj₀
    · refine absurd (List.any_eq_true.mpr ⟨entry, hmem, ?_⟩) hnone
      rw [hf]
      rfl
    · exact ⟨job', hj₀, .refl P job'⟩

/-! ## Child results -/

theorem settleTouched_rouses {P : Millis → Prop} (now : Millis) (reports : List (FlowChildReport V))
    (acc : List ReportResult × Store V) (entry : JobId × Touch) (hm : WakeInv acc.2) :
    Rouses P acc.2 (settleTouched now reports acc entry).2 := by
  unfold settleTouched
  simp only
  split
  · exact .refl P hm
  · rename_i parent _
    split
    · exact .refl P hm
    · split
      · exact .refl P hm
      · split
        · exact settleFailFast_rouses hm now parent _
        · split
          · exact makeRunnable_rouses hm rfl rfl parent now
          · exact .refl P hm

theorem recordChildResults_rouses {P : Millis → Prop} {s : Store V} (hm : WakeInv s)
    (hk : s.toCore.Keyed) (now : Millis) (reports : List (FlowChildReport V)) :
    Rouses P s (recordChildResults s now reports).2 := by
  have hfirst : Rouses P s { s with toCore := (recorded s reports).core } := by
    refine .quiet hm hk (signals_withCore ..) ?_
    refine (recorded_reports s reports).mono fun l hl => ?_
    obtain ⟨report, _, rfl⟩ := hl
    trivial
  have hfold : ∀ (entries : List (JobId × Touch)) (acc : List ReportResult × Store V),
      Rouses P s acc.2 →
      Rouses P s (entries.foldl (settleTouched now reports) acc).2 := by
    intro entries
    induction entries with
    | nil => exact fun acc h => h
    | cons entry entries ih =>
      exact fun acc h => ih _ (h.trans (settleTouched_rouses now reports acc entry h.wakeInv))
  exact hfold _ _ hfirst

/-! ## All operations -/

theorem flowSweepWork_signals (s : Store V) (now : Millis) (options : FlowSweepOptions) :
    (flowSweepWork s now options).2.signals = s.signals := rfl

/-- Extending locks writes jobs only. -/
theorem extendLocks_store (s : Store V) (now : Millis) (locks : List Lock) (durationMs : Millis) :
    (extendLocks s now locks durationMs).2 =
      { s with toCore := (extendLocks s now locks durationMs).2.toCore } := by
  have hone : ∀ (acc : ExtendLocksResult × Store V) lock,
      (extendLock now durationMs acc lock).2 =
        { acc.2 with toCore := (extendLock now durationMs acc lock).2.toCore } := by
    intro acc lock
    unfold extendLock
    simp only
    split
    · rfl
    · split
      · rfl
      · split <;> rfl
  have hfold : ∀ acc : ExtendLocksResult × Store V,
      (locks.foldl (extendLock now durationMs) acc).2 =
        { acc.2 with toCore := (locks.foldl (extendLock now durationMs) acc).2.toCore } := by
    induction locks with
    | nil => exact fun acc => rfl
    | cons lock locks ih =>
      intro acc
      rw [List.foldl_cons, ih, hone]
  exact hfold (⟨[], []⟩, s)

theorem extendLocks_signals (s : Store V) (now : Millis) (locks : List Lock) (durationMs : Millis) :
    (extendLocks s now locks durationMs).2.signals = s.signals := by
  rw [extendLocks_store]
  rfl

theorem claim_signals (s : Store V) (now : Millis) (options : ClaimOptions) :
    (claim s now options).2.signals = s.signals := by
  unfold claim
  simp only
  split
  · split <;> rfl
  · rfl

theorem claim_rouses {s : Store V} (hm : WakeInv s) (hk : s.toCore.Keyed) (now : Millis)
    (options : ClaimOptions) : Rouses (· = now) s (claim s now options).2 := by
  refine .quiet hm hk (claim_signals ..) ((claim_does hk now options).mono fun l hl => ?_)
  cases hl <;> trivial

/-- What every operation does to the jobs and the marks. -/
theorem exec_rouses {s : Store V} (hm : WakeInv s) (hk : s.toCore.Keyed) (now : Millis) (op : Op V) :
    Rouses (· = now) s (exec s now op) := by
  have hquiet : ∀ t : Store V, t.signals = s.signals → Does (Allows now op) s.toCore t.toCore →
      (∀ l, Allows now op l → l.Quiet (· = now)) → Rouses (· = now) s t := fun t hsame hdoes hl =>
    .quiet hm hk hsame (hdoes.mono hl)
  have hdoes := exec_does hk now op
  have hjobs : ∀ t : Store V, t.jobs = s.jobs → ∀ id job', t.jobs.get? id = some job' →
      job'.Queued → ∃ job, s.jobs.get? id = some job ∧ Stays (· = now) job job' :=
    fun t heq id job' hj _ => ⟨job', heq ▸ hj, .refl _ job'⟩
  cases op with
  | enqueue request ids => exact enqueueOne_rouses hm now request ids
  | resumeEnqueue request candidate => exact resumeEnqueue_rouses hm now request candidate
  | claim options => exact claim_rouses hm hk now options
  | ack id token outcome => exact ack_rouses hm now id token outcome
  | release id token => exact release_rouses hm now id token
  | extendLocks locks durationMs =>
    exact hquiet _ (extendLocks_signals ..) hdoes fun l hl => by cases hl; trivial
  | recoverStalled maxStalledCount => exact recoverStalled_rouses hm now maxStalledCount
  | awaitWake queues wakeToken =>
    simp only [exec, awaitWake]
    split
    · exact .refl _ hm
    · refine .unmarked hm rfl (fun _ => rfl) (fun _ h => h) (Nat.le_succ _) (fun w hw => ?_)
        (hjobs _ rfl)
      rcases List.mem_append.mp hw with hw | hw
      · exact .inl hw
      · rw [List.mem_singleton.mp hw]
        exact .inr ⟨le_rfl, Nat.lt_succ_self _⟩
  | dropWaiter id =>
    exact .unmarked hm rfl (fun _ => rfl) (fun _ h => h) le_rfl
      (fun w hw => .inl (List.mem_filter.mp hw).1) (hjobs _ rfl)
  | retry id =>
    simp only [exec, retry]
    split
    · exact .refl _ hm
    · rename_i job _
      split
      · exact .refl _ hm
      · exact .put ((Move.retry now (s.seq + 1)).apply job) hm rfl rfl
  | cancel id => exact cancelJob_rouses hm now id
  | cancelByDedupe name key =>
    simp only [exec, cancelByDedupe]
    split
    · exact .refl _ hm
    · rename_i entry _
      have h := cancelJob_rouses (P := (· = now)) hm now entry.jobId
      split <;> rename_i hc <;> rw [hc] at h <;> exact h
  | promote id =>
    simp only [exec, promote]
    split
    · exact .refl _ hm
    · rename_i job _
      split
      · exact .refl _ hm
      · exact .put ((Move.promoteNow now).apply job) hm rfl rfl
  | pause queue =>
    simp only [exec, pause]
    split
    · exact .refl _ hm
    · exact .unmarked hm rfl (fun _ => rfl) (fun q hq => List.mem_append_left _ hq) le_rfl
        (fun w hw => .inl hw) (hjobs _ rfl)
  | resume queue =>
    simp only [exec, resume]
    split
    · refine .signalled hm rfl (fun q hq => ?_) fun id job' hj hq => .inr (hjobs _ rfl id job' hj hq)
      by_cases hne : q = queue
      · exact .inr fun q' h => (Option.some.inj h).symm.trans hne.symm
      · exact .inl (List.mem_filter.mpr ⟨hq, decide_eq_true hne⟩)
    · exact .refl _ hm
  | upsertSchedule schedule =>
    rw [exec, upsertSchedule]
    exact .signalled hm rfl (fun q hq => .inl hq) fun id job' hj hq =>
      .inr (hjobs _ rfl id job' hj hq)
  | removeSchedule key =>
    exact .of_jobs hm rfl (hjobs _ rfl)
  | advanceSchedule key expectedRunAt nextRunAt =>
    simp only [exec, advanceSchedule]
    split
    · exact .refl _ hm
    · split
      · exact .of_jobs hm rfl (hjobs _ rfl)
      · exact .refl _ hm
  | tickSchedule key expectedRunAt nextRunAt request =>
    exact tickSchedule_rouses hm now key expectedRunAt nextRunAt request
  | recordChildResults reports => exact recordChildResults_rouses hm hk now reports
  | deleteOutbox ids => exact .of_jobs hm rfl (hjobs _ rfl)
  | flowSweepWork options => exact .of_jobs hm (flowSweepWork_signals ..) (hjobs _ rfl)
  | markChildrenCascaded flowId childKeys => exact .of_jobs hm rfl (hjobs _ rfl)
  | remove id =>
    refine hquiet _ ?_ hdoes fun l hl => by cases hl; trivial
    simp only [exec, remove]
    split
    · rfl
    · split <;> rfl
  | sweepHistory ttlByState =>
    exact hquiet _ rfl hdoes fun l hl => by cases hl; trivial

/-! ## Runs -/

theorem execs_rouses {s : Store V} (hm : WakeInv s) (hk : s.toCore.Keyed)
    (events : List (Millis × Op V)) :
    Rouses (fun now => ∃ op, (now, op) ∈ events) s (execs s events) := by
  induction events generalizing s with
  | nil => exact .refl _ hm
  | cons event events ih =>
    have hfirst := exec_rouses hm hk event.1 event.2
    have hrest := ih hfirst.wakeInv (exec_keyed hk event.1 event.2)
    refine (hfirst.mono ?_).trans (hrest.mono ?_)
    · rintro now rfl
      exact ⟨event.2, by simp⟩
    · rintro now ⟨op, hmem⟩
      exact ⟨op, List.mem_cons_of_mem _ hmem⟩

theorem reachable_wakeInv {s : Store V} (h : Reachable Initial Next s) : WakeInv s := by
  have hinv : s.toCore.Keyed ∧ WakeInv s := by
    refine h.induct (I := fun s => s.toCore.Keyed ∧ WakeInv s) ?_ ?_
    · rintro s rfl
      exact ⟨fun _ _ hj => (by cases hj), fun _ => le_rfl, fun _ hw => (by cases hw)⟩
    · rintro s event t rfl ⟨hk, hm⟩
      exact ⟨exec_keyed hk event.1 event.2, (exec_rouses hm hk event.1 event.2).wakeInv⟩
  exact hinv.2

/-! ## An empty claim -/

/-- What an empty claim tells about the store it leaves. -/
theorem claim_empty {s : Store V} {now : Millis} {options : ClaimOptions} {r : Option Millis} {w : ℕ}
    (h : (claim s now options).1 = .empty r w) :
    w = (claim s now options).2.wakeVersion ∧
    ∀ id job, (claim s now options).2.jobs.get? id = some job → job.queue = options.queue →
      job.name ∈ options.names →
      (job.state = .waiting → options.queue ∈ (claim s now options).2.paused) ∧
      (job.state = .delayed → ∃ t, r = some t ∧ t ≤ job.runAt) := by
  have hscan := scanned options (promoteDue s now).jobs.values
  have hnext : ∀ id job, (promoteDue s now).jobs.get? id = some job → job.queue = options.queue →
      job.name ∈ options.names → job.state = .delayed → ∃ t,
        ((promoteDue s now).jobs.values.foldl (claimScan options) ⟨none, none⟩).nextRunAt = some t ∧
          t ≤ job.runAt := fun id job hj hq hn =>
    hscan.soonest job (JsMap.mem_values.mpr ⟨id, hj⟩) ⟨hq, hn⟩
  unfold claim at h ⊢
  simp only at h ⊢
  split at h
  · split at h
    · rename_i hpaused
      rw [if_pos hpaused]
      cases h
      exact ⟨rfl, fun id job hj hq hn => ⟨fun _ => hpaused, hnext id job hj hq hn⟩⟩
    · cases h
  · rename_i hbest
    cases h
    refine ⟨rfl, fun id job hj hq hn => ⟨fun hst => ?_, hnext id job hj hq hn⟩⟩
    obtain ⟨best, hb, _⟩ := hscan.ahead job (JsMap.mem_values.mpr ⟨id, hj⟩) ⟨hq, hn⟩ hst
    rw [hbest] at hb
    cases hb

/-! ## No lost wake-ups -/

/-- The queue is not paused, and the job is waiting, or delayed until before `r`, for a claim with
these options. -/
def Offers (s : Store V) (options : ClaimOptions) (r : Option Millis) (id : JobId) : Prop :=
  options.queue ∉ s.paused ∧ ∃ job, s.jobs.get? id = some job ∧ job.queue = options.queue ∧
    job.name ∈ options.names ∧
    (job.state = .waiting ∨ job.state = .delayed ∧ ∀ t, r = some t → job.runAt < t)

/-- The job was delayed in the queue already, and the clock has reached `r` since. -/
def Awaited (s : Store V) (options : ClaimOptions) (r : Option Millis)
    (events : List (Millis × Op V)) (id : JobId) : Prop :=
  (∃ job, s.jobs.get? id = some job ∧ job.queue = options.queue ∧ job.state = .delayed) ∧
  ∃ t now op, r = some t ∧ (now, op) ∈ events ∧ t ≤ now

def Parked (s : Store V) (waiter : ℕ) : Prop := ∃ w ∈ s.waiters, w.id = waiter

/-- After a claim that has left `s` and handed out `r` and `w`. -/
structure NoLostWake (s : Store V) (options : ClaimOptions) (r : Option Millis) (w : ℕ) :
    Prop where
  /-- A wait that comes after the change returns at once. -/
  returns : ∀ events id, Offers (execs s events) options r id → ¬ Awaited s options r events id →
    (awaitWake (execs s events) [options.queue] w).1 = none
  /-- A wait that is parked when the change comes is resolved by the operation that makes it. -/
  resolves : ∀ es₁ now₁ queues es₂ now₂ op waiter, options.queue ∈ queues →
    (awaitWake (execs s es₁) queues w).1 = some waiter →
    Parked (execs s (es₁ ++ (now₁, .awaitWake queues w) :: es₂)) waiter →
    ∀ id, Offers (execs s (es₁ ++ (now₁, .awaitWake queues w) :: es₂ ++ [(now₂, op)])) options r id →
    ¬ Awaited s options r (es₁ ++ (now₁, .awaitWake queues w) :: es₂ ++ [(now₂, op)]) id →
    ¬ Parked (execs s (es₁ ++ (now₁, .awaitWake queues w) :: es₂ ++ [(now₂, op)])) waiter ∧
      op ≠ .dropWaiter waiter
  /-- So is every other waiter on the queue, unless the job was only promoted by the clock. -/
  resolvesAll : ∀ events now op id, Offers (exec (execs s events) now op) options r id →
    ¬ Offers (execs s events) options r id →
    (¬ ∃ job, (execs s events).jobs.get? id = some job ∧ job.queue = options.queue ∧
      job.state = .delayed ∧ job.runAt ≤ now) →
    ∀ waiter ∈ (execs s events).waiters, options.queue ∈ waiter.queues →
      waiter ∉ (exec (execs s events) now op).waiters ∧ op ≠ .dropWaiter waiter.id

/-- What offers a job has woken its queue, or has only promoted the job. -/
theorem Rouses.offers {P : Millis → Prop} {s t : Store V} (h : Rouses P s t)
    {options : ClaimOptions} {r : Option Millis} {id : JobId} (ho : Offers t options r id) :
    Woken s t options.queue ∨ Offers s options r id ∨
      ∃ job, s.jobs.get? id = some job ∧ job.queue = options.queue ∧ job.name ∈ options.names ∧
        options.queue ∉ s.paused ∧ job.state = .delayed ∧ ∃ now, P now ∧ job.runAt ≤ now := by
  obtain ⟨hp, job', hj', hq, hn, hst⟩ := ho
  by_cases hw : Woken s t options.queue
  · exact .inl hw
  · have hp₀ : options.queue ∉ s.paused := fun hmem => (h.paused _ hmem).elim hp hw
    rcases h.jobs id job' hj' (hst.imp_right And.left) with hwoken | ⟨job, hj, hs⟩
    · rw [hq] at hwoken
      exact absurd hwoken hw
    · have hq₀ : job.queue = options.queue := hs.queue.symm.trans hq
      have hn₀ : job.name ∈ options.names := hs.name ▸ hn
      rcases hs.state with heq | ⟨hd, _, hdue⟩
      · rw [heq, hs.runAt] at hst
        exact .inr (.inl ⟨hp₀, job, hj, hq₀, hn₀, hst⟩)
      · exact .inr (.inr ⟨job, hj, hq₀, hn₀, hp₀, hd, hdue⟩)

theorem awaitWake_returns {s : Store V} {q : QueueName} {w : ℕ} (h : w < lastWakeFor s q) :
    (awaitWake s [q] w).1 = none := by
  unfold awaitWake
  rw [if_pos (by simpa using h)]

theorem awaitWake_parks {s : Store V} {queues : List QueueName} {w waiter : ℕ}
    (h : (awaitWake s queues w).1 = some waiter) :
    waiter = s.nextWaiter ∧ (∀ q ∈ queues, lastWakeFor s q ≤ w) ∧
      (awaitWake s queues w).2 = { s with
        waiters := s.waiters ++ [{ id := s.nextWaiter, queues }]
        nextWaiter := s.nextWaiter + 1 } := by
  unfold awaitWake at h ⊢
  split at h
  · cases h
  · rename_i hlate
    rw [if_neg hlate]
    cases h
    refine ⟨rfl, fun q hq => not_lt.mp fun hlt => hlate ?_, rfl⟩
    exact List.any_eq_true.mpr ⟨q, hq, decide_eq_true hlt⟩

section

variable {s : Store V} {now : Millis} {options : ClaimOptions} {r : Option Millis} {w : ℕ}

/-- After an empty claim only what it was told to wait for is offered without a wake-up. -/
theorem woken_of_offers (hm : WakeInv s) (hk : s.toCore.Keyed)
    (hc : (claim s now options).1 = .empty r w) {events : List (Millis × Op V)} {id : JobId}
    (ho : Offers (execs (claim s now options).2 events) options r id)
    (hna : ¬ Awaited (claim s now options).2 options r events id) :
    w < lastWakeFor (execs (claim s now options).2 events) options.queue := by
  obtain ⟨hw, hempty⟩ := claim_empty hc
  have hm₀ : WakeInv (claim s now options).2 := (claim_rouses hm hk now options).wakeInv
  have hk₀ : (claim s now options).2.toCore.Keyed := exec_keyed hk now (.claim options)
  rcases (execs_rouses hm₀ hk₀ events).offers ho with hwoken | ⟨hp, job, hj, hq, hn, hst⟩ |
    ⟨job, hj, hq, hn, hp, hd, t, ⟨op, hmem⟩, hdue⟩
  · rw [hw]
    exact hwoken
  · obtain ⟨hwaiting, hdelayed⟩ := hempty id job hj hq hn
    rcases hst with hst | ⟨hst, hbefore⟩
    · exact absurd (hwaiting hst) hp
    · obtain ⟨t, hr, hle⟩ := hdelayed hst
      exact absurd (hbefore t hr) (not_lt.mpr hle)
  · obtain ⟨t', hr, hle⟩ := (hempty id job hj hq hn).2 hd
    exact absurd ⟨⟨job, hj, hq, hd⟩, t', t, op, hr, hmem, hle.trans hdue⟩ hna

/-- A waiter that was parked with a mark's token is gone when the queue carries a later mark. -/
theorem not_parked_of_woken {t : Store V} (hm : WakeInv t) (hk : t.toCore.Keyed)
    {queues : List QueueName} {waiter : ℕ} {q : QueueName} (hq : q ∈ queues)
    (hpark : (awaitWake t queues w).1 = some waiter) (events : List (Millis × Op V))
    (hw : w < lastWakeFor (execs (awaitWake t queues w).2 events) q) :
    ¬ Parked (execs (awaitWake t queues w).2 events) waiter := by
  obtain ⟨rfl, hle, heq⟩ := awaitWake_parks hpark
  have hm₁ : WakeInv (awaitWake t queues w).2 := (exec_rouses hm hk 0 (.awaitWake queues w)).wakeInv
  have hk₁ : (awaitWake t queues w).2.toCore.Keyed := exec_keyed hk 0 (.awaitWake queues w)
  have h := execs_rouses hm₁ hk₁ events
  have hnext : (awaitWake t queues w).2.nextWaiter = t.nextWaiter + 1 := by rw [heq]
  have hmark : lastWakeFor (awaitWake t queues w).2 q ≤ w := by
    rw [heq]
    exact hle q hq
  rintro ⟨w', hw', hid⟩
  rcases h.waiters w' hw' with hmem | hlater
  · have hmem' := hmem
    rw [heq] at hmem'
    rcases List.mem_append.mp hmem' with hold | hnew
    · have hlt := hm.waiters w' hold
      omega
    · rw [List.mem_singleton.mp hnew] at hw'
      have hge := h.resolved q (lt_of_le_of_lt hmark hw) _ hw' hq
      rw [hnext] at hge
      exact absurd hge (Nat.not_succ_le_self _)
  · omega

end

theorem Awaited.append {s : Store V} {options : ClaimOptions} {r : Option Millis}
    {events : List (Millis × Op V)} {id : JobId} (h : Awaited s options r events id)
    (events' : List (Millis × Op V)) : Awaited s options r (events ++ events') id := by
  obtain ⟨hj, t, now, op, hr, hmem, hle⟩ := h
  exact ⟨hj, t, now, op, hr, List.mem_append_left _ hmem, hle⟩

theorem execs_append (s : Store V) (es es' : List (Millis × Op V)) :
    execs s (es ++ es') = execs (execs s es) es' :=
  List.foldl_append ..

/-- After a claim that finds nothing, no wake-up is lost, whatever is done to the store. -/
theorem no_lost_wake {s : Store V} (h : Reachable Initial Next s) {now : Millis}
    {options : ClaimOptions} {r : Option Millis} {w : ℕ}
    (hc : (claim s now options).1 = .empty r w) : NoLostWake (claim s now options).2 options r w := by
  have hk := reachable_keyed h
  have hm := reachable_wakeInv h
  have hreach : ∀ events, Reachable Initial Next (execs (claim s now options).2 events) :=
    fun events => (h.next (e := (now, .claim options)) rfl).run (run_next events _)
  constructor
  · intro events id ho hna
    exact awaitWake_returns (woken_of_offers hm hk hc ho hna)
  · intro es₁ now₁ queues es₂ now₂ op waiter hq hpark hparked id ho hna
    have hgone : ∀ es, Offers (execs (claim s now options).2
          (es₁ ++ (now₁, .awaitWake queues w) :: es)) options r id →
        ¬ Awaited (claim s now options).2 options r (es₁ ++ (now₁, .awaitWake queues w) :: es) id →
        ¬ Parked (execs (claim s now options).2 (es₁ ++ (now₁, .awaitWake queues w) :: es))
          waiter := by
      intro es ho hna
      have hw := woken_of_offers hm hk hc ho hna
      rw [execs_append] at hw ⊢
      exact not_parked_of_woken (reachable_wakeInv (hreach es₁)) (reachable_keyed (hreach es₁)) hq
        hpark es hw
    have hsplit : es₁ ++ (now₁, Op.awaitWake queues w) :: es₂ ++ [(now₂, op)] =
        es₁ ++ (now₁, .awaitWake queues w) :: (es₂ ++ [(now₂, op)]) := by simp
    refine ⟨?_, ?_⟩
    · rw [hsplit] at ho hna ⊢
      exact hgone _ ho hna
    · rintro rfl
      rw [execs_append] at ho
      exact hgone es₂ ho (fun ha => hna (ha.append _)) hparked
  · intro events now' op id ho hno hnd waiter hmem hq
    have hm' := reachable_wakeInv (hreach events)
    have h' := exec_rouses hm' (reachable_keyed (hreach events)) now' op
    constructor
    · intro hmem'
      rcases h'.offers ho with hwoken | ho' | ⟨job, hj, hq', _, _, hd, _, rfl, hdue⟩
      · have hlt := lt_of_le_of_lt (hm'.marks options.queue) hwoken
        have hge := h'.resolved options.queue hlt waiter hmem' hq
        exact absurd (hm'.waiters waiter hmem) (not_lt.mpr hge)
      · exact hno ho'
      · exact hnd ⟨job, hj, hq', hd, hdue⟩
    · rintro rfl
      exact hno ho

/-- A claim of an idle queue, and a job that arrives before the wait. -/
theorem no_lost_wake_enqueued :
    (awaitWake (execs (claim (Store.empty : Store Unit) 0 ⟨"q", ["job"], "t", 30⟩).2
      [(1, .enqueue (.plain "a" "job" "q" ()) .counter)]) ["q"] 0).1 = none := by
  have hc : (claim (Store.empty : Store Unit) 0 ⟨"q", ["job"], "t", 30⟩).1 = .empty none 0 := rfl
  have h := no_lost_wake (reachable_next []) hc
  have hidle : "q" ∉ ([] : List QueueName) := List.not_mem_nil
  refine h.returns _ "a" ⟨hidle, _, rfl, rfl, by decide, .inl rfl⟩ ?_
  rintro ⟨⟨job, hj, _⟩, _⟩
  cases hj

end EffectMq.Memory
