import EffectMq.Worker.Schedules

/-! # What a tick carries

A sweep builds the tick job from the copy it read, and the compare-and-swap looks at the slot alone. So
a registration that keeps the slot but not the contents is missed by the sweeps that are under way. In
every run whose calls are `Undisturbed` each tick job is that of the row stored when it is inserted.
-/

namespace EffectMq.Worker
set_option autoImplicit false
set_option maxHeartbeats 250000

open Transition Memory

variable {V : Type}

/-- Others do anything but tick. -/
def NoTick (_ : Store V) : Op V → Prop
  | .tickSchedule _ _ _ _ => False
  | _ => True

/-- The job is the row's. -/
structure JobOf (row : ScheduleRecord V) (job : MemJob V) : Prop where
  name : job.name = row.jobName
  queue : job.queue = row.queue
  payload : job.payload = row.payload
  priority : job.priority = row.priority
  attemptsMax : job.attemptsMax = row.attemptsMax
  backoff : job.backoff = row.backoff
  keep : job.keep = row.keep
  timeoutMs : job.timeoutMs = row.timeoutMs

/-- A call that inserts a tick job inserts that of the stored row, and moves the row to an occurrence of
its own cadence. -/
def CarriesCurrent (cronNext : CronNext) (s : Sweeps V) (e : SweepEvent V) : Prop :=
  ∀ call now, Calls s e call now → (call.run s.store now).1 = .ok true →
    ∃ row job row' readAt, s.store.schedules.get? call.key = some row ∧
      (call.run s.store now).2.jobs.get? (tickId call.key call.slot) = some job ∧ JobOf row job ∧
      (call.run s.store now).2.schedules.get? call.key = some row' ∧
      nextOccurrence cronNext row row.nextRunAt readAt = some row'.nextRunAt

/-- Since the sweep read its copy, no registration has changed the contents or the cadence. -/
def Undisturbed (s : Sweeps V) (e : SweepEvent V) : Prop :=
  ∀ call now, Calls s e call now → call.copy.revision = s.revision call.key

/-! ## Copies of the current revision -/

theorem SameTick.read {a b : ScheduleRecord V} (h : SameTick a b) {β : Type}
    (f : ScheduleRecord V → β) : f (contents a) = f (contents b) :=
  congrArg f h

theorem SameTick.cadence {a b : ScheduleRecord V} (h : SameTick a b) : SameCadence a b where
  cron := h.read fun schedule => schedule.cron
  tz := h.read fun schedule => schedule.tz
  everyMs := h.read fun schedule => schedule.everyMs

theorem SameTick.jobOf {a b : ScheduleRecord V} (h : SameTick a b) (scheduledFor : String)
    (id : JobId) (now : Millis) (seq : ℕ) : JobOf b (newJob id (tickRequest a scheduledFor) now seq) where
  name := h.read fun schedule => schedule.jobName
  queue := h.read fun schedule => schedule.queue
  payload := h.read fun schedule => schedule.payload
  priority := h.read fun schedule => schedule.priority
  attemptsMax := h.read fun schedule => schedule.attemptsMax
  backoff := h.read fun schedule => schedule.backoff
  keep := h.read fun schedule => schedule.keep
  timeoutMs := h.read fun schedule => schedule.timeoutMs

/-- An insertion leaves the job under its id and the occurrence in its row. -/
theorem tickSchedule_inserted {s : Store V} {now : Millis} {key : ScheduleKey}
    {expectedRunAt nextRunAt : Millis} {request : EnqueueRequest V} {id : JobId}
    (hid : request.id = some id)
    (h : (tickSchedule s now key expectedRunAt nextRunAt request).1 = .ok true) :
    (tickSchedule s now key expectedRunAt nextRunAt request).2.jobs.get? id =
      some (newJob id request now (s.seq + 1)) := by
  obtain ⟨row, id', hrow, hcas, hid', hfree⟩ := tickSchedule_true h
  cases hid.symm.trans hid'
  unfold tickSchedule
  rw [hid]
  simp only [hrow, ne_eq, hcas, not_true_eq_false, if_false, JsMap.has, hfree, Option.isSome_none,
    Bool.false_eq_true]
  rw [insertJobRecord, signalWake_jobs]
  exact (putJob_get? ..).trans (if_pos rfl)

theorem upserted_sameTick (s : Store V) (schedule : ScheduleRecord V) :
    SameTick (upserted s schedule) schedule := by
  unfold upserted
  split
  · rfl
  · split <;> rfl

/-- A copy read at the current revision is that of the stored row. -/
structure CopyInv (cronNext : CronNext) (s : Sweeps V) : Prop where
  sweepers : ∀ q, (s.sweepers q).Ok cronNext
  rowKey : ∀ k row, s.store.schedules.get? k = some row → row.key = k
  copies : ∀ q copy, copy ∈ (s.sweepers q).held →
    copy.revision ≤ s.revision copy.schedule.key ∧
    (copy.revision = s.revision copy.schedule.key → ∀ row,
      s.store.schedules.get? copy.schedule.key = some row → SameTick copy.schedule row)

theorem CopyInv.carries {cronNext : CronNext} {s : Sweeps V} {e : SweepEvent V}
    (hs : CopyInv cronNext s) (hsafe : Undisturbed s e) :
    CarriesCurrent cronNext s e := by
  intro call now hcalls hanswer
  obtain ⟨p, hheld⟩ := hcalls.held
  obtain ⟨row, _, hrow, hslot, _⟩ := tickSchedule_true hanswer
  have hrow : s.store.schedules.get? call.copy.schedule.key = some row := hrow
  have hsame := (hs.copies p call.copy hheld).2 (hsafe call now hcalls) row hrow
  have hok := hcalls.callOk hs.sweepers
  obtain ⟨hnext, scheduledFor, _, hrequest⟩ := sweepSchedule_eq_some hok.sweep
  have hafter := hok.row s.store now call.key
  rw [show s.store.schedules.get? call.key = some row from hrow, Option.map_some,
    if_pos ⟨rfl, hslot⟩] at hafter
  refine ⟨row, _, _, call.readAt, hrow, tickSchedule_inserted hok.request_id hanswer, ?_, hafter, ?_⟩
  · rw [hrequest]
    exact hsame.jobOf scheduledFor _ now _
  · rw [← hsame.cadence.nextOccurrence cronNext row.nextRunAt call.readAt, hslot]
    exact hnext

variable [DecidableEq V] {cronNext : CronNext} {s t : Sweeps V} {e : SweepEvent V}

/-- What an operation of others does to the row of a key. -/
theorem NoTick.row {now : Millis} {op : Op V} (hop : NoTick s.store op) {k : ScheduleKey}
    {row' : ScheduleRecord V} (hrow' : (exec s.store now op).schedules.get? k = some row') :
    s.revision k < revised s op k ∨
      ∃ row, s.store.schedules.get? k = some row ∧ SameTick row row' := by
  by_cases hon : OnSchedules op
  · cases op with
    | upsertSchedule schedule =>
      have hrow : (upsertSchedule s.store schedule).schedules.get? k = some row' := hrow'
      rw [upsertSchedule_schedules, JsMap.get?_set] at hrow
      split at hrow
      · rename_i hk
        cases hrow
        by_cases hre : Reregisters s.store schedule
        · refine .inl ?_
          rw [revised, if_pos ⟨hk, hre⟩]
          exact Nat.lt_succ_self _
        · unfold Reregisters at hre
          push Not at hre
          obtain ⟨row, hrow, hsame⟩ := hre
          exact .inr ⟨row, hk ▸ hrow, hsame.trans (upserted_sameTick s.store schedule).symm⟩
      · exact .inr ⟨row', hrow, rfl⟩
    | removeSchedule k' =>
      have hrow : (s.store.schedules.delete k').get? k = some row' := hrow'
      rw [JsMap.get?_delete] at hrow
      split at hrow
      · cases hrow
      · exact .inr ⟨row', hrow, rfl⟩
    | advanceSchedule k' expectedRunAt nextRunAt =>
      have hrow : (advanceSchedule s.store k' expectedRunAt nextRunAt).schedules.get? k = some row' :=
        hrow'
      unfold advanceSchedule at hrow
      split at hrow
      · exact .inr ⟨row', hrow, rfl⟩
      · rename_i row hrow₀
        split at hrow
        · rw [JsMap.get?_set] at hrow
          split at hrow
          · rename_i hk
            cases hrow
            exact .inr ⟨row, hk ▸ hrow₀, rfl⟩
          · exact .inr ⟨row', hrow, rfl⟩
        · exact .inr ⟨row', hrow, rfl⟩
    | tickSchedule => exact hop.elim
    | _ => exact hon.elim
  · rw [exec_schedules s.store now hon] at hrow'
    exact .inr ⟨row', hrow', rfl⟩

theorem le_revised (s : Sweeps V) (op : Op V) (k : ScheduleKey) : s.revision k ≤ revised s op k := by
  cases op with
  | upsertSchedule schedule =>
    rw [revised]
    split <;> omega
  | _ => exact le_rfl

theorem CopyInv.step (h : SweepStep cronNext NoTick s e t) (hs : CopyInv cronNext s) :
    CopyInv cronNext t := by
  refine ⟨h.sweepersOk hs.sweepers, fun k row => h.rowKey hs.sweepers hs.rowKey,
    fun q copy hcopy => ?_⟩
  rcases h.held hcopy with hold | ⟨now, hread, hstore, hrev⟩
  · obtain ⟨hle, hcurrent⟩ := hs.copies q copy hold
    cases h with
    | op now op hop =>
      have hgrow := le_revised s op copy.schedule.key
      refine ⟨hle.trans hgrow, fun heq row' hrow' => ?_⟩
      have heq : copy.revision = revised s op copy.schedule.key := heq
      rcases hop.row hrow' with hlt | ⟨row, hrow, hsame⟩
      · omega
      · exact (hcurrent (by omega) row hrow).trans hsame
    | dueSchedules | nextOccurrence | skip | abandon => exact ⟨hle, hcurrent⟩
    | @tickSchedule p now since call due known hp =>
      have hcalls : Calls s (.tickSchedule p now known) call now :=
        ⟨p, known, rfl, by rw [hp]; rfl⟩
      have hafter := (hcalls.callOk hs.sweepers).row s.store now copy.schedule.key
      refine ⟨hle, fun heq row' hrow' => ?_⟩
      rw [show (call.run s.store now).2.schedules.get? copy.schedule.key = some row' from hrow']
        at hafter
      obtain ⟨row, hrow, rfl⟩ := Option.map_eq_some_iff.mp hafter.symm
      have hsame := hcurrent heq row hrow
      split <;> exact hsame
  · obtain ⟨schedule, hmem, rfl⟩ := List.mem_map.mp hread
    obtain ⟨⟨k, hrow⟩, _⟩ := mem_dueSchedules hmem
    obtain rfl := hs.rowKey k schedule hrow
    rw [hstore, hrev]
    refine ⟨le_rfl, fun _ row hrow' => ?_⟩
    cases hrow.symm.trans hrow'
    rfl

theorem reachable_copyInv (h : Reachable SweepStart (SweepStep cronNext NoTick) s) :
    CopyInv cronNext s := by
  refine h.induct (I := CopyInv cronNext) ?_ fun _ _ _ hstep hs => hs.step hstep
  rintro s rfl
  exact ⟨fun _ => trivial, fun _ _ hrow => (by cases hrow), fun _ _ hcopy => (by cases hcopy)⟩

/-- In a run whose calls are all undisturbed, every tick carries the schedule as it is stored. -/
theorem ticks_carry_current {es : List (SweepEvent V)}
    (h : Reachable SweepStart (SweepStep cronNext NoTick) s)
    (_hr : Run (SweepStep cronNext NoTick) s es t)
    (hsafe : EachStep (SweepStep cronNext NoTick) s es t Undisturbed) :
    EachStep (SweepStep cronNext NoTick) s es t (CarriesCurrent cronNext) := by
  intro es₁ e es₂ u u' heq hr₁ hstep hr₂
  exact (reachable_copyInv (h.run hr₁)).carries (hsafe es₁ e es₂ u u' heq hr₁ hstep hr₂)

def digest (payload : ℕ) : ScheduleRecord ℕ where
  key := "digest"
  jobName := "send"
  queue := "mail"
  cron := none
  tz := none
  everyMs := some 10
  payload := payload
  metadata := []
  priority := 0
  attemptsMax := 1
  backoff := none
  keep := none
  timeoutMs := none
  group := none
  nextRunAt := 0

def digestCall : TickCall ℕ :=
  ⟨⟨digest 1, 1⟩, 5, 10, tickRequest (digest 1) "1970-01-01T00:00:00.000Z"⟩

/-- `digest 1` is registered and read by a sweep. -/
def digestRead : Sweeps ℕ where
  store := exec Store.empty 0 (.upsertSchedule (digest 1))
  revision := revised ⟨Store.empty, fun _ => 0, fun _ => .idle⟩ (.upsertSchedule (digest 1))
  sweepers := fun q => if q = 0 then .sweeping [⟨digest 1, 1⟩] 0 else .idle

/-- The store as others have left it, and the sweep about to call. -/
def aboutToTick (s : Sweeps ℕ) : Sweeps ℕ := s.setSweeper 0 (.ticking digestCall [] 0)

theorem reachable_digestRead : Reachable SweepStart (SweepStep everyMinute NoTick) digestRead := by
  have h₀ : Reachable SweepStart (SweepStep everyMinute NoTick)
      (⟨Store.empty, fun _ => 0, fun _ => .idle⟩ : Sweeps ℕ) := ⟨_, [], rfl, .refl _⟩
  have h₁ := h₀.next (.op _ 0 (.upsertSchedule (digest 1)) trivial)
  exact h₁.next (.dueSchedules _ (p := 0) 0 rfl)

theorem reachable_aboutToTick {s : Sweeps ℕ}
    (h : Reachable SweepStart (SweepStep everyMinute NoTick) s)
    (hs : s.sweepers 0 = .sweeping [⟨digest 1, 1⟩] 0) :
    Reachable SweepStart (SweepStep everyMinute NoTick) (aboutToTick s) := by
  have hnext : sweepSchedule everyMinute (digest 1) 5 = some (10, digestCall.request) := by
    decide +kernel
  exact h.next (.nextOccurrence s (p := 0) hs (by decide) hnext)

/-- A sweep that nobody disturbs ticks what is registered. -/
theorem ticks_carry_current_digest :
    CarriesCurrent everyMinute (aboutToTick digestRead) (.tickSchedule 0 6 true) := by
  have hstep : SweepStep everyMinute NoTick (aboutToTick digestRead) (.tickSchedule 0 6 true) _ :=
    .tickSchedule _ (p := 0) 6 true rfl
  refine ticks_carry_current (reachable_aboutToTick reachable_digestRead rfl) (.single hstep) ?_
    [] _ [] _ _ rfl (.refl _) hstep (.refl _)
  intro es₁ e es₂ u u' heq hr₁ _ _ call now hcalls
  cases es₁ with
  | nil =>
    cases heq
    cases hr₁
    obtain ⟨p, known, he, hcall⟩ := hcalls
    cases he
    cases hcall
    rfl
  | cons e' es₁ => simp at heq

/-- `digest 2` is registered between the read of `digest 1` and its tick. -/
def digestReplaced : Sweeps ℕ :=
  { digestRead with
    store := exec digestRead.store 1 (.upsertSchedule (digest 2))
    revision := revised digestRead (.upsertSchedule (digest 2)) }

/-- The compare-and-swap succeeds, and the tick runs with the payload that was replaced. -/
theorem tick_carries_replaced :
    Reachable SweepStart (SweepStep everyMinute NoTick) (aboutToTick digestReplaced) ∧
      (digestCall.run (aboutToTick digestReplaced).store 6).1 = .ok true ∧
      ¬ CarriesCurrent everyMinute (aboutToTick digestReplaced) (.tickSchedule 0 6 true) := by
  have hreach : Reachable SweepStart (SweepStep everyMinute NoTick) digestReplaced :=
    reachable_digestRead.next (.op _ 1 (.upsertSchedule (digest 2)) trivial)
  have hanswer : (digestCall.run (aboutToTick digestReplaced).store 6).1 = .ok true := by rfl
  refine ⟨reachable_aboutToTick hreach rfl, hanswer, fun hcarries => ?_⟩
  obtain ⟨row, job, _, _, hrow, hj, hjob, _⟩ := hcarries digestCall 6 ⟨0, true, rfl, rfl⟩ hanswer
  have hstored : (aboutToTick digestReplaced).store.schedules.get? digestCall.key =
      some (digest 2) := by rfl
  have hinserted : (digestCall.run (aboutToTick digestReplaced).store 6).2.jobs.get?
      (tickId digestCall.key digestCall.slot) = some
        (newJob (tickId digestCall.key digestCall.slot) digestCall.request 6 1) := by rfl
  cases hstored.symm.trans hrow
  cases hinserted.symm.trans hj
  exact absurd hjob.payload (by decide)

end EffectMq.Worker
