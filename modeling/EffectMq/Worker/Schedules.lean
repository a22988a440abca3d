import EffectMq.Schedule
import EffectMq.MemoryJobStore.Frame

/-! # Schedule sweeps

Any number of workers run `scheduleLoop` against one store: a sweep reads the due schedules, and for
each of its copies reads the clock, works out the next occurrence and calls `tickSchedule`. A call
whose answer is lost is repeated, and a sweep may be abandoned anywhere. Between these steps the store
is used by everyone else.

`revision` counts the registrations that changed what a key stands for, and a copy remembers the count
it was read at. Neither is used by the sweeps.
-/

namespace EffectMq.Worker
set_option autoImplicit false
set_option maxHeartbeats 250000

open Transition Memory

variable {V : Type}

/-! ## Sweeps -/

structure Copy (V : Type) where
  schedule : ScheduleRecord V
  revision : ℕ

/-- A `tickSchedule` call, worked out from a copy at the clock reading `readAt`. -/
structure TickCall (V : Type) where
  copy : Copy V
  readAt : Millis
  next : Millis
  request : EnqueueRequest V

/-- `since` is the clock reading of `dueSchedules`. -/
inductive Sweeper (V : Type)
  | idle
  | sweeping (due : List (Copy V)) (since : Millis)
  | ticking (call : TickCall V) (due : List (Copy V)) (since : Millis)

structure Sweeps (V : Type) where
  store : Store V
  revision : ScheduleKey → ℕ
  sweepers : ℕ → Sweeper V

inductive SweepEvent (V : Type)
  | op (now : Millis) (op : Op V)
  | dueSchedules (p : ℕ) (now : Millis)
  | nextOccurrence (p : ℕ) (now : Millis)
  | tickSchedule (p : ℕ) (now : Millis) (known : Bool)
  | abandon (p : ℕ)

def dueSchedules (s : Store V) (now : Millis) : List (ScheduleRecord V) :=
  (s.schedules.values.filter fun schedule => decide (schedule.nextRunAt ≤ now)).insertionSort
    fun a b => a.nextRunAt ≤ b.nextRunAt

/-- What `sweepSchedule` reads of a row, but for the slot. -/
def contents (schedule : ScheduleRecord V) : ScheduleRecord V :=
  { schedule with group := none, nextRunAt := 0 }

def SameTick (a b : ScheduleRecord V) : Prop := contents a = contents b

instance [DecidableEq V] (a b : ScheduleRecord V) : Decidable (SameTick a b) :=
  inferInstanceAs (Decidable (_ = _))

/-- Whether a registration changes what its key stands for. -/
def Reregisters (s : Store V) (schedule : ScheduleRecord V) : Prop :=
  ∀ row, s.schedules.get? schedule.key = some row → ¬ SameTick row schedule

instance [DecidableEq V] (s : Store V) (schedule : ScheduleRecord V) :
    Decidable (Reregisters s schedule) :=
  match h : s.schedules.get? schedule.key with
  | none => isTrue fun row hrow => by
      rw [h] at hrow
      cases hrow
  | some row => decidable_of_iff (¬ SameTick row schedule) (by
      unfold Reregisters
      rw [h]
      exact ⟨fun hne row' hrow => Option.some.inj hrow ▸ hne, fun hall => hall row rfl⟩)

def revised [DecidableEq V] (s : Sweeps V) : Op V → ScheduleKey → ℕ
  | .upsertSchedule schedule, key =>
    if key = schedule.key ∧ Reregisters s.store schedule then s.revision key + 1
    else s.revision key
  | _, key => s.revision key

def Sweeps.setSweeper (s : Sweeps V) (p : ℕ) (sweeper : Sweeper V) : Sweeps V :=
  { s with sweepers := fun q => if q = p then sweeper else s.sweepers q }

def TickCall.key (call : TickCall V) : ScheduleKey := call.copy.schedule.key

def TickCall.slot (call : TickCall V) : Millis := call.copy.schedule.nextRunAt

def TickCall.run (call : TickCall V) (s : Store V) (now : Millis) :
    Except StoreError Bool × Store V :=
  tickSchedule s now call.key call.slot call.next call.request

def copies (s : Sweeps V) (now : Millis) : List (Copy V) :=
  (dueSchedules s.store now).map fun schedule => ⟨schedule, s.revision schedule.key⟩

/-- `ok` says which operations others may call. -/
inductive SweepStep [DecidableEq V] (cronNext : CronNext) (ok : Store V → Op V → Prop) :
    Sweeps V → SweepEvent V → Sweeps V → Prop
  | op (s : Sweeps V) (now : Millis) (op : Op V) (h : ok s.store op) :
      SweepStep cronNext ok s (.op now op)
        { s with store := exec s.store now op, revision := revised s op }
  | dueSchedules (s : Sweeps V) {p : ℕ} (now : Millis) (h : s.sweepers p = .idle) :
      SweepStep cronNext ok s (.dueSchedules p now)
        (s.setSweeper p (.sweeping (copies s now) now))
  | nextOccurrence (s : Sweeps V) {p : ℕ} {now since next : Millis} {copy : Copy V}
      {due : List (Copy V)} {request : EnqueueRequest V}
      (h : s.sweepers p = .sweeping (copy :: due) since) (hlater : since ≤ now)
      (hnext : sweepSchedule cronNext copy.schedule now = some (next, request)) :
      SweepStep cronNext ok s (.nextOccurrence p now)
        (s.setSweeper p (.ticking ⟨copy, now, next, request⟩ due since))
  | skip (s : Sweeps V) {p : ℕ} {now since : Millis} {copy : Copy V} {due : List (Copy V)}
      (h : s.sweepers p = .sweeping (copy :: due) since) (hlater : since ≤ now)
      (hnext : sweepSchedule cronNext copy.schedule now = none) :
      SweepStep cronNext ok s (.nextOccurrence p now) (s.setSweeper p (.sweeping due since))
  | tickSchedule (s : Sweeps V) {p : ℕ} (now : Millis) {since : Millis} {call : TickCall V}
      {due : List (Copy V)} (known : Bool) (h : s.sweepers p = .ticking call due since) :
      SweepStep cronNext ok s (.tickSchedule p now known)
        ({ s with store := (call.run s.store now).2 }.setSweeper p
          (if known then .sweeping due since else s.sweepers p))
  | abandon (s : Sweeps V) (p : ℕ) : SweepStep cronNext ok s (.abandon p) (s.setSweeper p .idle)

def SweepStart (s : Sweeps V) : Prop :=
  s = ⟨Store.empty, fun _ => 0, fun _ => .idle⟩

/-! ## Schedules under the operations -/

theorem apart_schedules : Apart fun s : Store V => s.schedules :=
  ⟨⟨fun _ _ => rfl, fun _ _ => rfl, fun _ queue => by cases queue <;> rfl⟩, fun _ _ => rfl,
    fun _ _ => rfl⟩

/-- The operations on schedules. -/
def OnSchedules : Op V → Prop
  | .upsertSchedule _ | .removeSchedule _ | .advanceSchedule _ _ _ | .tickSchedule _ _ _ _ => True
  | _ => False

theorem exec_schedules (s : Store V) (now : Millis) {op : Op V} (hop : ¬ OnSchedules op) :
    (exec s now op).schedules = s.schedules := by
  cases op with
  | upsertSchedule | removeSchedule | advanceSchedule | tickSchedule => exact absurd trivial hop
  | awaitWake queues wakeToken =>
    simp only [exec, awaitWake]
    split <;> rfl
  | dropWaiter => rfl
  | pause queue =>
    simp only [exec, pause]
    split <;> rfl
  | resume queue =>
    simp only [exec, resume]
    split
    · exact apart_schedules.wake ..
    · rfl
  | enqueue | resumeEnqueue | ack | retry | recordChildResults =>
    exact apart_schedules.exec s now (.inr trivial)
  | _ => exact apart_schedules.exec s now (.inl trivial)

/-- The row an `upsertSchedule` stores. -/
def upserted (s : Store V) (schedule : ScheduleRecord V) : ScheduleRecord V :=
  match s.schedules.get? schedule.key with
  | none => schedule
  | some existing =>
    if existing.cron = schedule.cron ∧ existing.tz = schedule.tz ∧
        existing.everyMs = schedule.everyMs then
      { schedule with nextRunAt := existing.nextRunAt }
    else schedule

theorem upsertSchedule_schedules (s : Store V) (schedule : ScheduleRecord V) :
    (upsertSchedule s schedule).schedules = s.schedules.set schedule.key (upserted s schedule) :=
  apart_schedules.wake ..

/-- The row of a key after a tick: the compare-and-swap, if it is the key that is ticked. -/
theorem tickSchedule_row (s : Store V) (now : Millis) (key : ScheduleKey)
    (expectedRunAt nextRunAt : Millis) {request : EnqueueRequest V} {id : JobId}
    (hid : request.id = some id) (k : ScheduleKey) :
    (tickSchedule s now key expectedRunAt nextRunAt request).2.schedules.get? k =
      (s.schedules.get? k).map fun row =>
        if k = key ∧ row.nextRunAt = expectedRunAt then { row with nextRunAt } else row := by
  unfold tickSchedule
  rw [hid]
  simp only
  cases hrow : s.schedules.get? key with
  | none =>
    cases hk : s.schedules.get? k with
    | none => rfl
    | some row =>
      have hne : k ≠ key := by
        rintro rfl
        rw [hrow] at hk
        cases hk
      simp [hne]
  | some row =>
    have hset : ∀ (row' : ScheduleRecord V), (s.schedules.set key row').get? k =
        if k = key then some row' else s.schedules.get? k := fun row' => JsMap.get?_set ..
    by_cases hcas : row.nextRunAt = expectedRunAt
    · simp only [ne_eq, hcas, not_true_eq_false, if_false]
      have hboth : ∀ t : Store V, t.schedules = s.schedules.set key { row with nextRunAt } →
          t.schedules.get? k = (s.schedules.get? k).map fun row =>
            if k = key ∧ row.nextRunAt = expectedRunAt then { row with nextRunAt } else row := by
        intro t ht
        rw [ht, hset]
        by_cases hk : k = key
        · rw [if_pos hk, hk, hrow, Option.map_some, if_pos ⟨rfl, hcas⟩]
        · rw [if_neg hk]
          simp [hk]
      split
      · exact hboth _ rfl
      · exact hboth _ (apart_schedules.insertJobRecord ..)
    · simp only [ne_eq, hcas, not_false_eq_true, if_true]
      by_cases hk : k = key
      · rw [hk, hrow, Option.map_some, if_neg fun h => hcas h.2]
      · simp [hk]

/-! ## What sweepers hold -/

def Sweeper.held : Sweeper V → List (Copy V)
  | .idle => []
  | .sweeping due _ => due
  | .ticking call due _ => call.copy :: due

def Sweeper.call? : Sweeper V → Option (TickCall V)
  | .ticking call _ _ => some call
  | _ => none

/-- The step is this call of `tickSchedule`. -/
def Calls (s : Sweeps V) (e : SweepEvent V) (call : TickCall V) (now : Millis) : Prop :=
  ∃ p known, e = .tickSchedule p now known ∧ (s.sweepers p).call? = some call

/-- A call is what `sweepSchedule` makes of its copy, at a clock that has passed the slot. -/
structure TickCall.Ok (cronNext : CronNext) (call : TickCall V) : Prop where
  sweep : sweepSchedule cronNext call.copy.schedule call.readAt = some (call.next, call.request)
  due : call.slot ≤ call.readAt

def Sweeper.Ok (cronNext : CronNext) : Sweeper V → Prop
  | .idle => True
  | .sweeping due since => ∀ copy ∈ due, copy.schedule.nextRunAt ≤ since
  | .ticking call due since =>
    call.Ok cronNext ∧ ∀ copy ∈ due, copy.schedule.nextRunAt ≤ since

theorem TickCall.Ok.request_id {cronNext : CronNext} {call : TickCall V} (h : call.Ok cronNext) :
    call.request.id = some (tickId call.key call.slot) := by
  obtain ⟨_, scheduledFor, _, heq⟩ := sweepSchedule_eq_some h.sweep
  rw [heq]
  rfl

theorem mem_dueSchedules {s : Store V} {now : Millis} {schedule : ScheduleRecord V}
    (h : schedule ∈ dueSchedules s now) :
    (∃ key, s.schedules.get? key = some schedule) ∧ schedule.nextRunAt ≤ now := by
  have hmem := (List.mem_insertionSort _).mp h
  obtain ⟨hval, hdue⟩ := List.mem_filter.mp hmem
  exact ⟨JsMap.mem_values.mp hval, of_decide_eq_true hdue⟩

theorem Calls.callOk {cronNext : CronNext} {s : Sweeps V} {e : SweepEvent V} {call : TickCall V}
    {now : Millis} (h : Calls s e call now) (hs : ∀ q, (s.sweepers q).Ok cronNext) : call.Ok cronNext := by
  obtain ⟨p, known, _, hcall⟩ := h
  have hp := hs p
  cases hw : s.sweepers p with
  | ticking call' due since =>
    rw [hw] at hcall hp
    cases hcall
    exact hp.1
  | _ =>
    rw [hw] at hcall
    cases hcall

theorem Calls.held {s : Sweeps V} {e : SweepEvent V} {call : TickCall V} {now : Millis}
    (h : Calls s e call now) : ∃ p, call.copy ∈ (s.sweepers p).held := by
  obtain ⟨p, known, _, hcall⟩ := h
  refine ⟨p, ?_⟩
  cases hw : s.sweepers p with
  | ticking call' due since =>
    rw [hw] at hcall
    cases hcall
    exact List.mem_cons_self
  | _ =>
    rw [hw] at hcall
    cases hcall

section Sweeps

variable [DecidableEq V] {cronNext : CronNext} {ok : Store V → Op V → Prop} {s t : Sweeps V}
  {e : SweepEvent V}

/-- A copy was held before, or has just been read. -/
theorem SweepStep.held (h : SweepStep cronNext ok s e t) {q : ℕ} {copy : Copy V}
    (hcopy : copy ∈ (t.sweepers q).held) :
    copy ∈ (s.sweepers q).held ∨
      ∃ now, copy ∈ copies s now ∧ t.store = s.store ∧ t.revision = s.revision := by
  have hset : ∀ {u : Sweeps V} {p : ℕ} {sweeper : Sweeper V}, u.sweepers = s.sweepers →
      copy ∈ ((u.setSweeper p sweeper).sweepers q).held →
      (∀ c ∈ sweeper.held, c ∈ (s.sweepers p).held) → copy ∈ (s.sweepers q).held := by
    intro u p sweeper hu hc hsub
    by_cases hq : q = p
    · subst hq
      exact hsub copy (by simpa [Sweeps.setSweeper] using hc)
    · simpa [Sweeps.setSweeper, hq, hu] using hc
  cases h with
  | op => exact .inl hcopy
  | @dueSchedules p now hidle =>
    by_cases hq : q = p
    · refine .inr ⟨now, ?_, rfl, rfl⟩
      simpa [Sweeps.setSweeper, hq, Sweeper.held] using hcopy
    · refine .inl ?_
      simpa [Sweeps.setSweeper, hq] using hcopy
  | nextOccurrence hp =>
    refine .inl (hset rfl hcopy fun c hc => ?_)
    rw [hp]
    exact hc
  | skip hp =>
    refine .inl (hset rfl hcopy fun c hc => ?_)
    rw [hp]
    exact List.mem_cons_of_mem _ hc
  | tickSchedule now known hp =>
    refine .inl (hset rfl hcopy fun c hc => ?_)
    cases known with
    | false => exact hc
    | true =>
      rw [hp]
      exact List.mem_cons_of_mem _ hc
  | abandon p => exact .inl (hset rfl hcopy fun c hc => by cases hc)

theorem SweepStep.sweepersOk (h : SweepStep cronNext ok s e t)
    (hs : ∀ q, (s.sweepers q).Ok cronNext) (q : ℕ) : (t.sweepers q).Ok cronNext := by
  have hset : ∀ {u : Sweeps V} {p : ℕ} {sweeper : Sweeper V}, u.sweepers = s.sweepers →
      sweeper.Ok cronNext → ((u.setSweeper p sweeper).sweepers q).Ok cronNext := by
    intro u p sweeper hu hok
    by_cases hq : q = p
    · simpa [Sweeps.setSweeper, hq] using hok
    · simpa [Sweeps.setSweeper, hq, hu] using hs q
  cases h with
  | op => exact hs q
  | dueSchedules now hidle =>
    refine hset rfl fun copy hcopy => ?_
    obtain ⟨schedule, hmem, rfl⟩ := List.mem_map.mp hcopy
    exact (mem_dueSchedules hmem).2
  | @nextOccurrence p now since next copy due request hp hlater hnext =>
    have hold := hs p
    rw [hp] at hold
    refine hset rfl ⟨⟨hnext, ?_⟩, fun c hc => hold c (by simp [hc])⟩
    exact (hold copy (by simp)).trans hlater
  | @skip p now since copy due hp =>
    have hold := hs p
    rw [hp] at hold
    exact hset rfl fun c hc => hold c (by simp [hc])
  | @tickSchedule p now since call due known hp =>
    have hold := hs p
    rw [hp] at hold
    cases known with
    | false =>
      refine hset rfl ?_
      rw [if_neg (by decide), hp]
      exact hold
    | true => exact hset rfl hold.2
  | abandon p => exact hset rfl trivial

end Sweeps

/-! ## One key under the steps -/

section Key

variable (cronNext : CronNext) (key : ScheduleKey)

/-- Others leave the key's row alone, but for registrations of an unchanged cadence. -/
def KeepsCadence (s : Store V) : Op V → Prop
  | .upsertSchedule schedule => ∀ row, schedule.key = key → s.schedules.get? key = some row →
      SameCadence schedule row
  | .removeSchedule k | .advanceSchedule k _ _ | .tickSchedule k _ _ _ => k ≠ key
  | _ => True

variable {key}

/-- The row of the key after an operation of others: the same cadence, due at the same time. -/
theorem KeepsCadence.row {s : Store V} {op : Op V} (h : KeepsCadence key s op) (now : Millis)
    {row : ScheduleRecord V} (hrow : s.schedules.get? key = some row) :
    ∃ row', (exec s now op).schedules.get? key = some row' ∧ SameCadence row' row ∧
      row'.nextRunAt = row.nextRunAt := by
  have hsame : SameCadence row row := .refl row
  by_cases hop : OnSchedules op
  · cases op with
    | upsertSchedule schedule =>
      show ∃ row', (upsertSchedule s schedule).schedules.get? key = some row' ∧ _
      rw [upsertSchedule_schedules, JsMap.get?_set]
      by_cases hkey : schedule.key = key
      · have hcadence := h row hkey hrow
        refine ⟨upserted s schedule, if_pos hkey.symm, ?_⟩
        have heq : upserted s schedule = { schedule with nextRunAt := row.nextRunAt } := by
          unfold upserted
          rw [hkey, hrow]
          exact if_pos ⟨hcadence.cron.symm, hcadence.tz.symm, hcadence.everyMs.symm⟩
        rw [heq]
        exact ⟨⟨hcadence.cron, hcadence.tz, hcadence.everyMs⟩, rfl⟩
      · exact ⟨row, (if_neg (Ne.symm hkey)).trans hrow, hsame, rfl⟩
    | removeSchedule k =>
      refine ⟨row, ?_, hsame, rfl⟩
      show (s.schedules.delete k).get? key = some row
      rw [JsMap.get?_delete, if_neg (Ne.symm h), hrow]
    | advanceSchedule k expectedRunAt nextRunAt =>
      refine ⟨row, ?_, hsame, rfl⟩
      show (advanceSchedule s k expectedRunAt nextRunAt).schedules.get? key = some row
      unfold advanceSchedule
      split
      · exact hrow
      · split
        · rw [JsMap.get?_set, if_neg (Ne.symm h), hrow]
        · exact hrow
    | tickSchedule k expectedRunAt nextRunAt request =>
      refine ⟨row, ?_, hsame, rfl⟩
      show (tickSchedule s now k expectedRunAt nextRunAt request).2.schedules.get? key = some row
      cases hid : request.id with
      | none =>
        unfold tickSchedule
        rw [hid]
        exact hrow
      | some id =>
        rw [tickSchedule_row s now k expectedRunAt nextRunAt hid, hrow, Option.map_some,
          if_neg fun hk => h hk.1.symm]
    | _ => exact hop.elim
  · rw [exec_schedules s now hop]
    exact ⟨row, hrow, hsame, rfl⟩

variable {cronNext}

theorem TickCall.Ok.row {call : TickCall V} (hok : call.Ok cronNext) (s : Store V) (now : Millis)
    (k : ScheduleKey) :
    (call.run s now).2.schedules.get? k = (s.schedules.get? k).map fun row =>
      if k = call.key ∧ row.nextRunAt = call.slot then { row with nextRunAt := call.next } else row :=
  tickSchedule_row _ _ _ _ _ hok.request_id _

theorem TickCall.Ok.slot_lt (hstrict : cronNext.Strict) {call : TickCall V}
    (h : call.Ok cronNext) : call.slot < call.next ∧ call.readAt < call.next :=
  lt_nextOccurrence hstrict (sweepSchedule_eq_some h.sweep).1

/-- The step is a call whose compare-and-swap on the key succeeds. -/
def Swaps (key : ScheduleKey) (s : Sweeps V) (e : SweepEvent V) : Prop :=
  ∃ call now row, Calls s e call now ∧ call.key = key ∧ s.store.schedules.get? key = some row ∧
    row.nextRunAt = call.slot

/-- The step is a call that inserts the tick job of the slot. -/
def Inserts (key : ScheduleKey) (slot : Millis) (s : Sweeps V) (e : SweepEvent V) : Prop :=
  ∃ call now, Calls s e call now ∧ call.key = key ∧ call.slot = slot ∧
    (call.run s.store now).1 = .ok true

/-- Only a call that wins the compare-and-swap inserts. -/
theorem tickSchedule_true {s : Store V} {now : Millis} {key : ScheduleKey}
    {expectedRunAt nextRunAt : Millis} {request : EnqueueRequest V}
    (h : (tickSchedule s now key expectedRunAt nextRunAt request).1 = .ok true) :
    ∃ row id, s.schedules.get? key = some row ∧ row.nextRunAt = expectedRunAt ∧
      request.id = some id ∧ s.jobs.get? id = none := by
  unfold tickSchedule at h
  split at h
  · cases h
  · rename_i id hid
    split at h
    · cases h
    · rename_i row hrow
      split at h
      · cases h
      · rename_i hcas
        simp only at h
        split at h
        · cases h
        · rename_i hfree
          exact ⟨row, id, hrow, not_not.mp hcas, hid,
            JsMap.has_eq_false.mp (Bool.eq_false_iff.mpr hfree)⟩

/-- A row is one that was there, or the one just registered; only its slot may be another. -/
theorem exec_row (s : Store V) (now : Millis) (op : Op V) {k : ScheduleKey} {row : ScheduleRecord V}
    (hrow : (exec s now op).schedules.get? k = some row) :
    (∃ old nextRunAt, s.schedules.get? k = some old ∧ row = { old with nextRunAt }) ∨
      ∃ schedule nextRunAt, op = .upsertSchedule schedule ∧ schedule.key = k ∧
        row = { schedule with nextRunAt } := by
  have hsame : s.schedules.get? k = some row →
      ∃ old nextRunAt, s.schedules.get? k = some old ∧ row = { old with nextRunAt } :=
    fun h => ⟨row, row.nextRunAt, h, rfl⟩
  by_cases hop : OnSchedules op
  · cases op with
    | upsertSchedule schedule =>
      have hrow : (upsertSchedule s schedule).schedules.get? k = some row := hrow
      rw [upsertSchedule_schedules, JsMap.get?_set] at hrow
      split at hrow
      next hk =>
        obtain ⟨nextRunAt, hupserted⟩ : ∃ nextRunAt, upserted s schedule =
            { schedule with nextRunAt } := by
          unfold upserted
          split
          · exact ⟨_, rfl⟩
          · split <;> exact ⟨_, rfl⟩
        rw [hupserted] at hrow
        cases hrow
        exact .inr ⟨schedule, nextRunAt, rfl, hk.symm, rfl⟩
      next => exact .inl (hsame hrow)
    | removeSchedule k' =>
      have hrow : (s.schedules.delete k').get? k = some row := hrow
      rw [JsMap.get?_delete] at hrow
      split at hrow
      next => cases hrow
      next => exact .inl (hsame hrow)
    | advanceSchedule k' expectedRunAt nextRunAt =>
      have hrow : (advanceSchedule s k' expectedRunAt nextRunAt).schedules.get? k = some row := hrow
      unfold advanceSchedule at hrow
      split at hrow
      next => exact .inl (hsame hrow)
      next row' hrow' =>
        split at hrow
        next =>
          rw [JsMap.get?_set] at hrow
          split at hrow
          next hk =>
            cases hrow
            exact .inl ⟨row', nextRunAt, by rw [hk, hrow'], rfl⟩
          next => exact .inl (hsame hrow)
        next => exact .inl (hsame hrow)
    | tickSchedule k' expectedRunAt nextRunAt request =>
      have hrow : (tickSchedule s now k' expectedRunAt nextRunAt request).2.schedules.get? k =
        some row := hrow
      cases hid : request.id with
      | none =>
        unfold tickSchedule at hrow
        rw [hid] at hrow
        exact .inl (hsame hrow)
      | some id =>
        rw [tickSchedule_row s now k' expectedRunAt nextRunAt hid] at hrow
        obtain ⟨row', hrow', rfl⟩ := Option.map_eq_some_iff.mp hrow
        refine .inl ⟨row', ?_⟩
        split
        next => exact ⟨nextRunAt, hrow', rfl⟩
        next => exact ⟨row'.nextRunAt, hrow', rfl⟩
    | _ => exact hop.elim
  · rw [exec_schedules s now hop] at hrow
    exact .inl (hsame hrow)

theorem exec_rowKey {s : Store V} (h : ∀ k row, s.schedules.get? k = some row → row.key = k)
    (now : Millis) (op : Op V) {k : ScheduleKey} {row : ScheduleRecord V}
    (hrow : (exec s now op).schedules.get? k = some row) : row.key = k := by
  rcases exec_row s now op hrow with ⟨old, _, hold, rfl⟩ | ⟨schedule, _, _, hkey, rfl⟩
  · exact h k old hold
  · exact hkey

/-- What the steps keep for one key: a copy of it has the row's cadence and is not ahead of it. -/
structure KeyInv (cronNext : CronNext) (key : ScheduleKey) (s : Sweeps V) : Prop where
  sweepers : ∀ q, (s.sweepers q).Ok cronNext
  rowKey : ∀ k row, s.store.schedules.get? k = some row → row.key = k
  copies : ∀ q copy, copy ∈ (s.sweepers q).held → copy.schedule.key = key →
    ∃ row, s.store.schedules.get? key = some row ∧ SameCadence copy.schedule row ∧
      copy.schedule.nextRunAt ≤ row.nextRunAt

/-- On a slot that is still there, an `everyMs` schedule advances to the least grid point after the
sweeper's clock. -/
theorem KeyInv.next_grid {s : Sweeps V} {e : SweepEvent V} (hs : KeyInv cronNext key s) {call : TickCall V} {now : Millis}
    (hcalls : Calls s e call now) (hkey : call.key = key) {row : ScheduleRecord V}
    (hrow : s.store.schedules.get? key = some row) (hslot : row.nextRunAt = call.slot)
    {everyMs : Millis} (hcron : row.cron = none) (hevery : row.everyMs = some everyMs)
    (hpos : 0 < everyMs) :
    (∃ k : ℕ, call.next = row.nextRunAt + k * everyMs) ∧ call.readAt < call.next ∧
      ∀ k : ℤ, call.readAt < row.nextRunAt + k * everyMs →
        call.next ≤ row.nextRunAt + k * everyMs := by
  obtain ⟨p, hheld⟩ := hcalls.held
  obtain ⟨row', hrow', hcadence, _⟩ := hs.copies p call.copy hheld hkey
  rw [hrow] at hrow'
  cases hrow'
  have hok := hcalls.callOk hs.sweepers
  rw [hslot]
  exact nextOccurrence_least (hcadence.cron.trans hcron) (hcadence.everyMs.trans hevery) hpos hok.due
    (sweepSchedule_eq_some hok.sweep).1

/-- The key's next occurrence has passed the slot. -/
def Passed (key : ScheduleKey) (slot : Millis) (s : Sweeps V) : Prop :=
  ∃ row, s.store.schedules.get? key = some row ∧ slot < row.nextRunAt

variable [DecidableEq V] {s t : Sweeps V} {e : SweepEvent V}

/-- The row of the key after a step: moved by the winning call, or due at the same time. -/
theorem SweepStep.row (h : SweepStep cronNext (KeepsCadence key) s e t)
    (hs : ∀ q, (s.sweepers q).Ok cronNext) {row : ScheduleRecord V}
    (hrow : s.store.schedules.get? key = some row) :
    ∃ row', t.store.schedules.get? key = some row' ∧ SameCadence row' row ∧
      ((¬ Swaps key s e ∧ row'.nextRunAt = row.nextRunAt) ∨
        ∃ call now, Calls s e call now ∧ call.key = key ∧ row.nextRunAt = call.slot ∧
          row'.nextRunAt = call.next) := by
  have hsame : SameCadence row row := .refl row
  have hquiet : (∀ p now known, e ≠ .tickSchedule p now known) → ¬ Swaps key s e := by
    rintro hne ⟨_, now, _, ⟨p, known, he, _⟩, _⟩
    exact hne p now known he
  cases h with
  | op now op hop =>
    obtain ⟨row', hrow', hcadence, hnext⟩ := hop.row now hrow
    exact ⟨row', hrow', hcadence, .inl ⟨hquiet (by simp), hnext⟩⟩
  | dueSchedules | nextOccurrence | skip | abandon =>
    exact ⟨row, hrow, hsame, .inl ⟨hquiet (by simp), rfl⟩⟩
  | @tickSchedule p now since call due known hp =>
    have hcalls : Calls s (.tickSchedule p now known) call now := ⟨p, known, rfl, by rw [hp]; rfl⟩
    have hafter := (hcalls.callOk hs).row s.store now key
    rw [hrow, Option.map_some] at hafter
    refine ⟨_, hafter, ?_, ?_⟩
    · split <;> exact ⟨rfl, rfl, rfl⟩
    · split
      · rename_i hcas
        exact .inr ⟨call, now, hcalls, hcas.1.symm, hcas.2, rfl⟩
      · rename_i hcas
        refine .inl ⟨?_, rfl⟩
        rintro ⟨call', now', row', ⟨p', known', he, hcall⟩, hkey, hrow', hslot⟩
        cases he
        rw [hp] at hcall
        cases hcall
        rw [hrow] at hrow'
        cases hrow'
        exact hcas ⟨hkey.symm, hslot⟩

theorem SweepStep.rowKey {ok : Store V → Op V → Prop} (h : SweepStep cronNext ok s e t)
    (hs : ∀ q, (s.sweepers q).Ok cronNext)
    (hkey : ∀ k row, s.store.schedules.get? k = some row → row.key = k) {k : ScheduleKey}
    {row : ScheduleRecord V} (hrow : t.store.schedules.get? k = some row) : row.key = k := by
  cases h with
  | op now op => exact exec_rowKey hkey now op hrow
  | dueSchedules | nextOccurrence | skip | abandon => exact hkey k row hrow
  | @tickSchedule p now since call due known hp =>
    have hcalls : Calls s (.tickSchedule p now known) call now := ⟨p, known, rfl, by rw [hp]; rfl⟩
    have hafter := (hcalls.callOk hs).row s.store now k
    rw [show (call.run s.store now).2.schedules.get? k = some row from hrow] at hafter
    obtain ⟨row₀, hrow₀, heq⟩ := Option.map_eq_some_iff.mp hafter.symm
    rw [← heq]
    have hkey₀ := hkey k row₀ hrow₀
    split <;> exact hkey₀

/-- The next occurrence of a key never moves back. -/
theorem SweepStep.row_le (hstrict : cronNext.Strict)
    (h : SweepStep cronNext (KeepsCadence key) s e t) (hs : ∀ q, (s.sweepers q).Ok cronNext)
    {row : ScheduleRecord V} (hrow : s.store.schedules.get? key = some row) :
    ∃ row', t.store.schedules.get? key = some row' ∧ SameCadence row' row ∧
      row.nextRunAt ≤ row'.nextRunAt := by
  obtain ⟨row', hrow', hcadence, ⟨_, heq⟩ | ⟨call, now, hcalls, _, hslot, hnext⟩⟩ := h.row hs hrow
  · exact ⟨row', hrow', hcadence, heq.ge⟩
  · have hlt := ((hcalls.callOk hs).slot_lt hstrict).1
    refine ⟨row', hrow', hcadence, ?_⟩
    rw [hslot, hnext]
    exact hlt.le

theorem KeyInv.step (hstrict : cronNext.Strict)
    (h : SweepStep cronNext (KeepsCadence key) s e t) (hs : KeyInv cronNext key s) :
    KeyInv cronNext key t := by
  refine ⟨h.sweepersOk hs.sweepers, fun k row => h.rowKey hs.sweepers hs.rowKey,
    fun q copy hcopy hkey => ?_⟩
  rcases h.held hcopy with hold | ⟨now, hread, hstore, _⟩
  · obtain ⟨row, hrow, hcadence, hle⟩ := hs.copies q copy hold hkey
    obtain ⟨row', hrow', hcadence', hle'⟩ := h.row_le hstrict hs.sweepers hrow
    exact ⟨row', hrow', hcadence.trans hcadence'.symm, hle.trans hle'⟩
  · obtain ⟨schedule, hmem, rfl⟩ := List.mem_map.mp hread
    obtain ⟨⟨k, hrow⟩, _⟩ := mem_dueSchedules hmem
    have hk : k = key := (hs.rowKey k schedule hrow).symm.trans hkey
    rw [hstore, ← hk]
    exact ⟨schedule, hrow, ⟨rfl, rfl, rfl⟩, le_rfl⟩

theorem reachable_keyInv (hstrict : cronNext.Strict)
    (h : Reachable SweepStart (SweepStep cronNext (KeepsCadence key)) s) :
    KeyInv cronNext key s := by
  refine h.induct (I := KeyInv cronNext key) ?_ fun _ _ _ hstep hs => hs.step hstrict hstep
  rintro s rfl
  exact ⟨fun _ => trivial, fun _ _ hrow => (by cases hrow), fun _ _ hcopy => (by cases hcopy)⟩

/-! ## Every slot once, on the grid -/

/-- How the schedule of one key runs when its cadence is left alone. -/
structure FiresOnce (V : Type) [DecidableEq V] (cronNext : CronNext) (key : ScheduleKey) : Prop where
  advances : ∀ {s t : Sweeps V} {e row},
    Reachable SweepStart (SweepStep cronNext (KeepsCadence key)) s →
    SweepStep cronNext (KeepsCadence key) s e t → s.store.schedules.get? key = some row →
    ∃ row', t.store.schedules.get? key = some row' ∧
      (Swaps key s e → row.nextRunAt < row'.nextRunAt) ∧
      (¬ Swaps key s e → row'.nextRunAt = row.nextRunAt)
  once : ∀ slot, AtMostOnce (SweepStart (V := V)) (SweepStep cronNext (KeepsCadence key))
    fun s e _ => Inserts key slot s e
  grid : ∀ {s t : Sweeps V} {es row everyMs},
    Reachable SweepStart (SweepStep cronNext (KeepsCadence key)) s →
    Run (SweepStep cronNext (KeepsCadence key)) s es t →
    s.store.schedules.get? key = some row → row.cron = none → row.everyMs = some everyMs →
    0 < everyMs → ∃ row', t.store.schedules.get? key = some row' ∧
      ∃ k : ℕ, row'.nextRunAt = row.nextRunAt + k * everyMs
  least : ∀ {s t : Sweeps V} {e row everyMs call now},
    Reachable SweepStart (SweepStep cronNext (KeepsCadence key)) s →
    SweepStep cronNext (KeepsCadence key) s e t → Calls s e call now → call.key = key →
    s.store.schedules.get? key = some row → row.nextRunAt = call.slot →
    row.cron = none → row.everyMs = some everyMs → 0 < everyMs →
    ∃ row', t.store.schedules.get? key = some row' ∧
      (∃ k : ℕ, row'.nextRunAt = row.nextRunAt + k * everyMs) ∧ call.readAt < row'.nextRunAt ∧
      ∀ k : ℤ, call.readAt < row.nextRunAt + k * everyMs →
        row'.nextRunAt ≤ row.nextRunAt + k * everyMs

/-- A call that finds its slot still there leaves the occurrence it has worked out. -/
theorem SweepStep.swapped (h : SweepStep cronNext (KeepsCadence key) s e t)
    (hs : ∀ q, (s.sweepers q).Ok cronNext)
    {row : ScheduleRecord V} (hrow : s.store.schedules.get? key = some row) {call : TickCall V}
    {now : Millis} (hcalls : Calls s e call now) (hkey : call.key = key)
    (hslot : row.nextRunAt = call.slot) :
    ∃ row', t.store.schedules.get? key = some row' ∧ row'.nextRunAt = call.next := by
  obtain ⟨row', hrow', _, ⟨hno, _⟩ | ⟨call', now', hcalls', _, _, hnext⟩⟩ := h.row hs hrow
  · exact absurd ⟨call, now, row, hcalls, hkey, hrow, hslot⟩ hno
  · obtain ⟨p, known, he, hcall⟩ := hcalls
    obtain ⟨p', known', he', hcall'⟩ := hcalls'
    rw [he] at he'
    cases he'
    rw [hcall] at hcall'
    cases hcall'
    exact ⟨row', hrow', hnext⟩

theorem KeyInv.grid (hstrict : cronNext.Strict) {s t : Sweeps V} {es : List (SweepEvent V)}
    (hr : Run (SweepStep cronNext (KeepsCadence key)) s es t) (hs : KeyInv cronNext key s)
    {row : ScheduleRecord V} {everyMs : Millis}
    (hrow : s.store.schedules.get? key = some row) (hcron : row.cron = none)
    (hevery : row.everyMs = some everyMs) (hpos : 0 < everyMs) :
    ∃ row', t.store.schedules.get? key = some row' ∧
      ∃ k : ℕ, row'.nextRunAt = row.nextRunAt + k * everyMs := by
  induction hr generalizing row with
  | refl => exact ⟨row, hrow, 0, by simp⟩
  | @cons s u t e es hstep _ ih =>
    obtain ⟨row₁, hrow₁, hcadence, hmoved⟩ := hstep.row hs.sweepers hrow
    obtain ⟨row₂, hrow₂, k₂, hk₂⟩ := ih (hs.step hstrict hstep) hrow₁ (hcadence.cron.trans hcron)
      (hcadence.everyMs.trans hevery)
    refine ⟨row₂, hrow₂, ?_⟩
    rcases hmoved with ⟨_, heq⟩ | ⟨call, now, hcalls, hkey, hslot, hnext⟩
    · exact ⟨k₂, by rw [hk₂, heq]⟩
    · obtain ⟨⟨k₁, hk₁⟩, _⟩ := hs.next_grid hcalls hkey hrow hslot hcron hevery hpos
      refine ⟨k₁ + k₂, ?_⟩
      rw [hk₂, hnext, hk₁]
      push_cast
      ring

end Key

/-- `* * * * *`, the one expression it knows. -/
def everyMinute : CronNext := fun cron _ t =>
  if cron = "* * * * *" then some ((t / 60000 + 1) * 60000) else none

end EffectMq.Worker
