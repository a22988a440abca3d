import EffectMq.MemoryJobStore.Order

/-! # What a claim does

The law of `claim` over the store `S` in which the due delayed jobs of the claimed queue, and no
others, have become waiting: the first of `S` in the order of priority and place is handed out, or the
next due time is. `claim` promotes the due jobs of every queue, so it keeps this law exactly when no
other queue has one (`claim_meets_iff`).
-/

namespace EffectMq.Memory
set_option autoImplicit false
set_option maxHeartbeats 250000

open Transition

variable {V : Type}

/-! ## The law -/

def promoteQueue (s : Store V) (queue : QueueName) (now : Millis) : Store V :=
  { s with
    jobs := s.jobs.mapValues fun _ job =>
      if job.queue = queue ∧ job.state = .delayed ∧ job.runAt ≤ now then
        { job with state := .waiting }
      else job }

/-- A waiting job of the queue with one of the names. -/
def Runnable (s : Store V) (options : ClaimOptions) (job : MemJob V) : Prop :=
  s.jobs.get? job.id = some job ∧ job.Wanted options ∧ job.state = .waiting

/-- The runnable job of the highest priority and, among those, of the least `seq`. -/
def Foremost (s : Store V) (options : ClaimOptions) (first : MemJob V) : Prop :=
  Runnable s options first ∧ ∀ job, Runnable s options job → job ≠ first →
    job.priority < first.priority ∨ job.priority = first.priority ∧ first.seq < job.seq

/-- The least `runAt` of the delayed jobs, `none` when there are none. -/
def NextDue (s : Store V) (options : ClaimOptions) (r : Option Millis) : Prop :=
  (∀ t, r = some t → ∃ id job, s.jobs.get? id = some job ∧ job.Wanted options ∧
    job.state = .delayed ∧ job.runAt = t) ∧
  ∀ id job, s.jobs.get? id = some job → job.Wanted options → job.state = .delayed →
    ∃ t, r = some t ∧ t ≤ job.runAt

/-- What a claim that finds `S` answers and leaves behind. -/
structure Serves (S : Store V) (now : Millis) (options : ClaimOptions)
    (served : ClaimResult V × Store V) : Prop where
  claimed : options.queue ∉ S.paused → (∃ job, Runnable S options job) → ∃ first,
    Foremost S options first ∧
      served = (.claimed (snapshot (claimJob first options now)), S.putJob (claimJob first options now))
  empty : (options.queue ∈ S.paused ∨ ¬ ∃ job, Runnable S options job) → ∃ r,
    NextDue S options r ∧ served = (.empty r S.wakeVersion, S)

/-- The claim keeps the law. -/
def ClaimMeets (s : Store V) (now : Millis) (options : ClaimOptions) : Prop :=
  Serves (promoteQueue s options.queue now) now options (claim s now options)

/-- No delayed job of another queue is due. -/
def NoneDueElsewhere (s : Store V) (now : Millis) (queue : QueueName) : Prop :=
  ∀ id job, s.jobs.get? id = some job → job.queue ≠ queue → job.state = .delayed → now < job.runAt

/-! ## Over the store with every due job promoted -/

theorem foremost_of_ahead {s : Store V} (hseq : SeqInv s) {options : ClaimOptions}
    {first : MemJob V} (hfirst : Runnable s options first)
    (h : ∀ job, Runnable s options job → first.Ahead job) : Foremost s options first := by
  refine ⟨hfirst, fun job hjob hne => ?_⟩
  have hplace : job.seq ≠ first.seq := by
    intro heq
    have hid := hseq.inj _ _ job first hjob.1 hfirst.1 heq
    have hsame := hjob.1
    rw [hid, hfirst.1] at hsame
    exact hne (Option.some.inj hsame).symm
  have hahead := h job hjob
  unfold MemJob.Ahead at hahead
  omega

theorem claim_serves {s : Store V} {now : Millis} (hk : (promoteDue s now).toCore.Keyed)
    (hseq : SeqInv (promoteDue s now)) (options : ClaimOptions) :
    Serves (promoteDue s now) now options (claim s now options) := by
  have hscan := scanned options (promoteDue s now).jobs.values
  have hmem : ∀ job : MemJob V, job ∈ (promoteDue s now).jobs.values →
      (promoteDue s now).jobs.get? job.id = some job := fun job => mem_values_get? hk
  have hvalue : ∀ {id} {job : MemJob V}, (promoteDue s now).jobs.get? id = some job →
      job ∈ (promoteDue s now).jobs.values := fun h => JsMap.mem_values.mpr ⟨_, h⟩
  have hnext : NextDue (promoteDue s now) options
      ((promoteDue s now).jobs.values.foldl (claimScan options) ⟨none, none⟩).nextRunAt := by
    refine ⟨fun t ht => ?_, fun id job hj hw hst => hscan.soonest job (hvalue hj) hw hst⟩
    obtain ⟨job, hj, hw, hst, hr⟩ := hscan.next t ht
    exact ⟨job.id, job, hmem job hj, hw, hst, hr⟩
  unfold claim
  simp only
  split
  · rename_i best hbest
    obtain ⟨hin, hw, hst⟩ := hscan.best best hbest
    have hrunnable : Runnable (promoteDue s now) options best := ⟨hmem best hin, hw, hst⟩
    split
    · rename_i hpaused
      exact ⟨fun hnot => absurd hpaused hnot, fun _ => ⟨_, hnext, rfl⟩⟩
    · rename_i hpaused
      refine ⟨fun _ _ => ⟨best, foremost_of_ahead hseq hrunnable fun job hjob => ?_, rfl⟩,
        fun h => ?_⟩
      · obtain ⟨best', hb, hahead⟩ := hscan.ahead job (hvalue hjob.1) hjob.2.1 hjob.2.2
        rw [hbest] at hb
        cases hb
        exact hahead
      · exact h.elim (fun hp => absurd hp hpaused) fun hnone => absurd ⟨best, hrunnable⟩ hnone
  · rename_i hbest
    refine ⟨fun _ ⟨job, hjob⟩ => ?_, fun _ => ⟨_, hnext, rfl⟩⟩
    obtain ⟨best, hb, _⟩ := hscan.ahead job (hvalue hjob.1) hjob.2.1 hjob.2.2
    rw [hbest] at hb
    cases hb

/-! ## Jobs of other queues -/

theorem promoteDue_eq_promoteQueue {s : Store V} {now : Millis} {queue : QueueName}
    (h : NoneDueElsewhere s now queue) : promoteDue s now = promoteQueue s queue now := by
  have hjobs : (promoteDue s now).jobs = (promoteQueue s queue now).jobs := by
    apply JsMap.ext_entries
    simp only [promoteDue, promoteQueue, JsMap.mapValues]
    apply List.map_congr_left
    rintro ⟨id, job⟩ hmem
    have hj : s.jobs.get? id = some job := JsMap.get?_eq_some.mpr hmem
    by_cases hdue : job.state = .delayed ∧ job.runAt ≤ now
    · have hq : job.queue = queue := by
        by_contra hne
        exact absurd hdue.2 (not_le.mpr (h id job hj hne hdue.1))
      rw [if_pos hdue, if_pos ⟨hq, hdue⟩]
    · rw [if_neg hdue, if_neg fun hall => hdue hall.2]
  unfold promoteDue promoteQueue at hjobs ⊢
  simp only at hjobs
  rw [hjobs]

/-- A claim that keeps the law does to the jobs of other queues what `promoteQueue` does: nothing. -/
theorem Serves.elsewhere {S : Store V} {now : Millis} {options : ClaimOptions}
    {served : ClaimResult V × Store V} (h : Serves S now options served) {id : JobId}
    {job : MemJob V} (hj : S.jobs.get? id = some job) (hq : job.queue ≠ options.queue) :
    served.2.jobs.get? id = some job := by
  by_cases hserve : options.queue ∉ S.paused ∧ ∃ job, Runnable S options job
  · obtain ⟨first, hfirst, rfl⟩ := h.claimed hserve.1 hserve.2
    have hne : id ≠ first.id := by
      rintro rfl
      have hsame := hj.symm.trans hfirst.1.1
      cases hsame
      exact hq hfirst.1.2.1.1
    show (S.toCore.putJob (claimJob first options now)).jobs.get? id = some job
    rw [putJob_get?, if_neg (show id ≠ (claimJob first options now).id from hne), hj]
  · have hempty : options.queue ∈ S.paused ∨ ¬ ∃ job, Runnable S options job := by
      by_contra hc
      rw [not_or, not_not] at hc
      exact hserve hc
    obtain ⟨r, _, rfl⟩ := h.empty hempty
    exact hj

theorem reachable_promoteDue {s : Store V} (h : Reachable Initial Next s) (now : Millis) :
    (promoteDue s now).toCore.Keyed ∧ SeqInv (promoteDue s now) := by
  have hk := reachable_keyed h
  have hstep : Step s.toCore (.promoteDue now) (promoteDue s now).toCore := .promoteDue now
  exact ⟨hstep.keyed hk, (reachable_seqInv h).placeless hk rfl (.single hstep trivial)⟩

theorem ClaimMeets.noneDueElsewhere {s : Store V} (h : Reachable Initial Next s) {now : Millis}
    {options : ClaimOptions} (hmeets : ClaimMeets s now options) :
    NoneDueElsewhere s now options.queue := by
  obtain ⟨hk, hseq⟩ := reachable_promoteDue h now
  intro id job hj hq hst
  by_contra hdue
  have hkept : (promoteQueue s options.queue now).jobs.get? id = some job := by
    simp [promoteQueue, hj, hq]
  have hpromoted : (promoteDue s now).jobs.get? id = some { job with state := .waiting } := by
    simp [promoteDue, hj, hst, not_lt.mp hdue]
  have hlaw := hmeets.elsewhere hkept hq
  rw [(claim_serves hk hseq options).elsewhere hpromoted hq] at hlaw
  have hstate := congrArg (fun job : MemJob V => job.state) (Option.some.inj hlaw)
  rw [← hstate] at hst
  cases hst

/-- A claim keeps the law exactly when no delayed job of another queue is due. -/
theorem claim_meets_iff {s : Store V} (h : Reachable Initial Next s) (now : Millis)
    (options : ClaimOptions) :
    ClaimMeets s now options ↔ NoneDueElsewhere s now options.queue := by
  refine ⟨fun hmeets => hmeets.noneDueElsewhere h, fun hnone => ?_⟩
  obtain ⟨hk, hseq⟩ := reachable_promoteDue h now
  have hserves := claim_serves hk hseq options
  rw [promoteDue_eq_promoteQueue hnone] at hserves
  exact hserves

/-- A waiting job of queue `a`, and one of queue `b` that is due at `5`. -/
def twoQueues : List (Millis × Op Unit) :=
  [(0, .enqueue (.plain "first" "work" "a" ()) .counter),
    (0, .enqueue { EnqueueRequest.plain "later" "work" "b" () with delayMs := 5 } .counter)]

def claimOfA : ClaimOptions := ⟨"a", ["work"], "token", 30⟩

/-- Before the job of queue `b` is due, a claim of queue `a` keeps the law. -/
theorem claim_meets_early : ClaimMeets (execs Store.empty twoQueues) 4 claimOfA := by
  refine (claim_meets_iff (reachable_next twoQueues) 4 claimOfA).mpr fun id job hj hq hst => ?_
  have hall : ∀ entry ∈ (execs Store.empty twoQueues).jobs.entries, entry.2.queue ≠ "a" →
      entry.2.state = .delayed → 4 < entry.2.runAt := by decide
  exact hall (id, job) (JsMap.get?_eq_some.mp hj) hq hst

/-- From then on a claim of queue `a` promotes it. -/
theorem claim_promotes_elsewhere : ¬ ClaimMeets (execs Store.empty twoQueues) 5 claimOfA := by
  intro hmeets
  have hnone := hmeets.noneDueElsewhere (reachable_next twoQueues)
  have hj : (execs Store.empty twoQueues).jobs.get? "later" = some (newJob "later"
      { EnqueueRequest.plain "later" "work" "b" () with delayMs := 5 } 0 2) := by rfl
  have hlater := hnone _ _ hj (by decide) rfl
  exact absurd hlater (by decide)

end EffectMq.Memory
