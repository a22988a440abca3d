import EffectMq.JobStore
import Mathlib.Tactic.Linarith

/-! # Occurrences and ticks

`nextOccurrence` of `JobStore.ts` and the request that `sweepSchedule` of `Worker.ts` builds for a due
slot. `cronNext` stands for `Cron.parse` and `Cron.next`: the next instant of an expression after a
given one, `none` where either fails.
-/

namespace EffectMq
set_option autoImplicit false
set_option maxHeartbeats 250000

variable {V : Type}

/-! ## The next occurrence -/

abbrev CronNext := String → Option String → Millis → Option Millis

def nextOccurrence (cronNext : CronNext) (schedule : ScheduleRecord V) (fromSlot now : Millis) :
    Option Millis :=
  match schedule.cron with
  | some cron => cronNext cron schedule.tz (max fromSlot now)
  | none =>
    match schedule.everyMs with
    | some everyMs =>
      if 0 < everyMs then
        let behind := max 0 (now - fromSlot)
        let steps := behind / everyMs + 1
        some (fromSlot + steps * everyMs)
      else none
    | none => none

/-- `Cron.next` returns an instant strictly after its argument. -/
def CronNext.Strict (cronNext : CronNext) : Prop :=
  ∀ cron tz t t', cronNext cron tz t = some t' → t < t'

structure SameCadence (a b : ScheduleRecord V) : Prop where
  cron : a.cron = b.cron
  tz : a.tz = b.tz
  everyMs : a.everyMs = b.everyMs

theorem SameCadence.refl (a : ScheduleRecord V) : SameCadence a a := ⟨rfl, rfl, rfl⟩

theorem SameCadence.trans {a b c : ScheduleRecord V} (h : SameCadence a b) (h' : SameCadence b c) :
    SameCadence a c :=
  ⟨h.cron.trans h'.cron, h.tz.trans h'.tz, h.everyMs.trans h'.everyMs⟩

theorem SameCadence.symm {a b : ScheduleRecord V} (h : SameCadence a b) : SameCadence b a :=
  ⟨h.cron.symm, h.tz.symm, h.everyMs.symm⟩

theorem SameCadence.nextOccurrence {a b : ScheduleRecord V} (h : SameCadence a b)
    (cronNext : CronNext) (fromSlot now : Millis) :
    nextOccurrence cronNext a fromSlot now = nextOccurrence cronNext b fromSlot now := by
  unfold EffectMq.nextOccurrence
  rw [h.cron, h.tz, h.everyMs]

/-- The slot of an `everyMs` schedule: the next grid point. -/
theorem nextOccurrence_every {cronNext : CronNext} {schedule : ScheduleRecord V}
    {everyMs : Millis} (hcron : schedule.cron = none) (hevery : schedule.everyMs = some everyMs)
    (hpos : 0 < everyMs) (fromSlot now : Millis) :
    nextOccurrence cronNext schedule fromSlot now =
      some (fromSlot + (max 0 (now - fromSlot) / everyMs + 1) * everyMs) := by
  unfold nextOccurrence
  rw [hcron, hevery]
  exact if_pos hpos

theorem lt_nextOccurrence {cronNext : CronNext} (hstrict : cronNext.Strict)
    {schedule : ScheduleRecord V} {fromSlot now next : ℤ}
    (h : nextOccurrence cronNext schedule fromSlot now = some next) : fromSlot < next ∧ now < next := by
  cases hcron : schedule.cron with
  | some cron =>
    rw [nextOccurrence, hcron] at h
    have hlt := hstrict _ _ _ _ h
    exact max_lt_iff.mp hlt
  | none =>
    cases hevery : schedule.everyMs with
    | none =>
      rw [nextOccurrence, hcron, hevery] at h
      cases h
    | some everyMs =>
      by_cases hpos : 0 < everyMs
      · rw [nextOccurrence_every hcron hevery hpos] at h
        have hnext := Option.some.inj h
        have hbehind : 0 ≤ max 0 (now - fromSlot) := le_max_left ..
        have hnow : now - fromSlot ≤ max 0 (now - fromSlot) := le_max_right ..
        have hdiv := Int.lt_ediv_add_one_mul_self (max 0 (now - fromSlot)) hpos
        constructor <;> linarith
      · rw [nextOccurrence, hcron, hevery] at h
        simp only [if_neg hpos] at h
        cases h

/-- On a slot that is not ahead of the clock, the next one is the least grid point after the clock. -/
theorem nextOccurrence_least {cronNext : CronNext} {schedule : ScheduleRecord V}
    {everyMs fromSlot now next : ℤ} (hcron : schedule.cron = none)
    (hevery : schedule.everyMs = some everyMs) (hpos : 0 < everyMs) (hslot : fromSlot ≤ now)
    (h : nextOccurrence cronNext schedule fromSlot now = some next) :
    (∃ k : ℕ, next = fromSlot + k * everyMs) ∧ now < next ∧
      ∀ k : ℤ, now < fromSlot + k * everyMs → next ≤ fromSlot + k * everyMs := by
  have hbehind : max 0 (now - fromSlot) = now - fromSlot := max_eq_right (sub_nonneg.mpr hslot)
  rw [nextOccurrence_every hcron hevery hpos, hbehind] at h
  have hnext := Option.some.inj h
  have hnonneg : 0 ≤ (now - fromSlot) / everyMs := Int.ediv_nonneg (sub_nonneg.mpr hslot) hpos.le
  have hdiv := Int.lt_ediv_add_one_mul_self (now - fromSlot) hpos
  refine ⟨⟨((now - fromSlot) / everyMs + 1).toNat, ?_⟩, by linarith, fun k hk => ?_⟩
  · rw [← hnext, Int.toNat_of_nonneg (by linarith)]
  · have hlt : (now - fromSlot) / everyMs < k := Int.ediv_lt_of_lt_mul hpos (by linarith)
    have hmul : ((now - fromSlot) / everyMs + 1) * everyMs ≤ k * everyMs :=
      Int.mul_le_mul_of_nonneg_right hlt hpos.le
    linarith

/-! ## The tick request -/

def padded (width n : ℕ) : String :=
  String.ofList (List.replicate (width - n.repr.length) '0') ++ n.repr

/-- Year, month and day of the proleptic Gregorian calendar, from the days since 1970-01-01. -/
def civilDate (days : ℤ) : ℤ × ℤ × ℤ :=
  let z := days + 719468
  let era := z / 146097
  let dayOfEra := z - era * 146097
  let yearOfEra :=
    (dayOfEra - dayOfEra / 1460 + dayOfEra / 36524 - dayOfEra / 146096) / 365
  let dayOfYear := dayOfEra - (365 * yearOfEra + yearOfEra / 4 - yearOfEra / 100)
  let shifted := (5 * dayOfYear + 2) / 153
  let day := dayOfYear - (153 * shifted + 2) / 5 + 1
  let month := if shifted < 10 then shifted + 3 else shifted - 9
  (yearOfEra + era * 400 + if month ≤ 2 then 1 else 0, month, day)

def isoYear (year : ℤ) : String :=
  if 0 ≤ year ∧ year ≤ 9999 then padded 4 year.toNat
  else (if year < 0 then "-" else "+") ++ padded 6 year.natAbs

/-- `new Date(t).toISOString()`, which throws outside the range of a `Date`. -/
def toISOString (t : Millis) : Option String :=
  if t.natAbs ≤ 8640000000000000 then
    let (year, month, day) := civilDate (t / 86400000)
    let ms := (t % 86400000).toNat
    some (isoYear year ++ "-" ++ padded 2 month.toNat ++ "-" ++ padded 2 day.toNat ++ "T" ++
      padded 2 (ms / 3600000) ++ ":" ++ padded 2 (ms / 60000 % 60) ++ ":" ++
      padded 2 (ms / 1000 % 60) ++ "." ++ padded 3 (ms % 1000) ++ "Z")
  else none

/-- `{ ...record, [key]: value }`. -/
def withProperty (record : List (String × String)) (key value : String) :
    List (String × String) :=
  if record.any fun e => e.1 == key then
    record.map fun e => if e.1 == key then (key, value) else e
  else record ++ [(key, value)]

def tickId (key : ScheduleKey) (slot : Millis) : JobId := "sched/" ++ key ++ "/" ++ toString slot

def tickRequest (schedule : ScheduleRecord V) (scheduledFor : String) : EnqueueRequest V where
  id := some (tickId schedule.key schedule.nextRunAt)
  name := schedule.jobName
  queue := schedule.queue
  payload := schedule.payload
  metadata := withProperty schedule.metadata "scheduledFor" scheduledFor
  priority := schedule.priority
  attemptsMax := schedule.attemptsMax
  backoff := schedule.backoff
  keep := schedule.keep
  timeoutMs := schedule.timeoutMs
  dedupe := none
  trace := none
  parent := none
  delayMs := 0

/-- What `sweepSchedule` passes to `tickSchedule`; `none` where it logs an error instead. -/
def sweepSchedule (cronNext : CronNext) (schedule : ScheduleRecord V) (now : Millis) :
    Option (Millis × EnqueueRequest V) :=
  (nextOccurrence cronNext schedule schedule.nextRunAt now).bind fun next =>
    (toISOString schedule.nextRunAt).map fun scheduledFor => (next, tickRequest schedule scheduledFor)

theorem sweepSchedule_eq_some {cronNext : CronNext} {schedule : ScheduleRecord V}
    {now next : Millis} {request : EnqueueRequest V}
    (h : sweepSchedule cronNext schedule now = some (next, request)) :
    nextOccurrence cronNext schedule schedule.nextRunAt now = some next ∧
      ∃ scheduledFor, toISOString schedule.nextRunAt = some scheduledFor ∧
        request = tickRequest schedule scheduledFor := by
  obtain ⟨next', hnext, hmap⟩ := Option.bind_eq_some_iff.mp h
  obtain ⟨scheduledFor, hiso, heq⟩ := Option.map_eq_some_iff.mp hmap
  cases heq
  exact ⟨hnext, scheduledFor, hiso, rfl⟩

example : toISOString 1709210096007 = some "2024-02-29T12:34:56.007Z" := by decide +kernel

end EffectMq
