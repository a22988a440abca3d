import EffectMq.MemoryJobStore.Claims
import EffectMq.MemoryJobStore.Enqueue

/-! # The attempt budget

The worker decides about retries (`routeFailure`) from the record it claimed, the store counts the
attempts. A live job has attempts left as long as no dedup replace lowers the limit of a job that has
used them (`attempts_in_budget_iff`).
-/

namespace EffectMq.Worker
set_option autoImplicit false
set_option maxHeartbeats 250000

open Transition Memory

variable {V : Type}

/-! ## The worker's part -/

/-- The delay of an exponential backoff is a rounded power, which the routing does not depend on. -/
def routeFailure (backoffDelayMs : Option BackoffPolicy → ℕ → Millis) (record : JobRecord V)
    (exit : Option V) : AckOutcome V :=
  let attempt := record.attemptsMade + 1
  if record.attemptsMax ≤ attempt then .fail exit
  else .retry (backoffDelayMs record.backoff attempt) exit

theorem routeFailure_retry {backoffDelayMs : Option BackoffPolicy → ℕ → Millis}
    {record : JobRecord V} {exit exit' : Option V} {delayMs : Millis}
    (h : routeFailure backoffDelayMs record exit = .retry delayMs exit') :
    (record.attemptsMade : ℤ) + 1 < record.attemptsMax := by
  unfold routeFailure at h
  simp only at h
  split at h
  · cases h
  · rename_i hlt
    push_cast at hlt
    omega

section Budget

variable (backoffDelayMs : Option BackoffPolicy → ℕ → Millis)

/-- Requests carry a clamped limit, and a retry is what `routeFailure` made of the claimed record. -/
def Op.Routed (s : Claims V) : Op V → Prop
  | .enqueue request _ | .resumeEnqueue request _ | .tickSchedule _ _ _ request =>
    1 ≤ request.attemptsMax
  | .ack id token (.retry delayMs exit) => ∃ record, s.claims.get? token = some (some record) ∧
      record.id = id ∧ routeFailure backoffDelayMs record exit = .retry delayMs exit
  | _ => True

def BudgetStep (s : Claims V) (e : Millis × Op V) (t : Claims V) : Prop :=
  ClaimStep s e t ∧ Op.Routed backoffDelayMs s e.2

/-- A replace leaves the job it lands on more attempts than it has used. -/
def LeavesBudget (s : Claims V) (e : Millis × Op V) : Prop :=
  match e.2 with
  | .enqueue request _ => ∀ keyed, replaceTarget? s.store request = some keyed →
      (keyed.attemptsMade : ℤ) < request.attemptsMax
  | _ => True

/-- Every waiting, delayed or active job has an attempt left, and no claim returned a record whose
attempt would be beyond its limit. -/
structure InBudget (s : Claims V) : Prop where
  jobs : ∀ id job, s.store.jobs.get? id = some job →
    job.state = .waiting ∨ job.state = .delayed ∨ job.state = .active →
    (job.attemptsMade : ℤ) < job.attemptsMax
  runs : ∀ token record, s.claims.get? token = some (some record) →
    (record.attemptsMade : ℤ) + 1 ≤ record.attemptsMax

/-! ## One job -/

/-- A limit of at least one, and an attempt left until the job ends. -/
structure Fits (job : MemJob V) : Prop where
  clamped : 1 ≤ job.attemptsMax
  left : job.state.isTerminal = false → (job.attemptsMade : ℤ) < job.attemptsMax

theorem Fits.live {job : MemJob V} (h : Fits job) {st : JobState} (hst : job.state = st)
    (ht : st.isTerminal = false) : (job.attemptsMade : ℤ) < job.attemptsMax :=
  h.left (hst ▸ ht)

theorem fits_endJob {job : MemJob V} (h : Fits job) (now : Millis) (e : Ending V) :
    Fits (endJob job now e) := by
  refine ⟨?_, fun ht => ?_⟩
  · rw [endJob_attemptsMax]
    exact h.clamped
  · rw [endJob_state, isTerminal_toJobState] at ht
    cases ht

theorem Fits.with_flow {job : MemJob V} (h : Fits job) (flow : Option FlowState) :
    Fits { job with flow := flow } :=
  ⟨h.clamped, h.left⟩

def FitsAt (v : View V) : Prop :=
  ∀ job, v.job = some job → Fits job

theorem FitsAt.step {id : JobId} {l : Label V} {v v' : View V} (h : ViewStep id l v v')
    (hinsert : ∀ request now seq, l = .insert id request now seq → 1 ≤ request.attemptsMax)
    (hreplace : ∀ request now, l ≠ .move id (.replace request now))
    (hrequeue : ∀ delayMs exit now seq, l ≠ .move id (.requeue delayMs exit now seq))
    (hv : FitsAt v) : FitsAt v' := by
  intro job' hj
  cases h with
  | same | rearm | cascade => exact hv job' hj
  | insert request now seq =>
    cases hj
    have hmax := hinsert request now seq rfl
    refine ⟨hmax, fun _ => ?_⟩
    show ((0 : ℕ) : ℤ) < request.attemptsMax
    omega
  | @promote job _ _ hd =>
    have hfits := hv job rfl
    cases hj
    exact ⟨hfits.clamped, fun _ => hfits.live hd rfl⟩
  | @move job m _ hm =>
    have hfits := hv job rfl
    cases hj
    cases m with
    | replace => exact absurd rfl (hreplace _ _)
    | requeue => exact absurd rfl (hrequeue _ _ _ _)
    | promoteNow | claim | requestCancel => exact ⟨hfits.clamped, fun _ => hfits.live hm rfl⟩
    | extend | release | stall | resume => exact ⟨hfits.clamped, fun _ => hfits.live hm.1 rfl⟩
    | retry =>
      have hmax := hfits.clamped
      refine ⟨hmax, fun _ => ?_⟩
      show ((0 : ℕ) : ℤ) < job.attemptsMax
      omega
  | @finish job e now =>
    have hfits := hv job rfl
    cases hj
    exact fits_endJob hfits now e
  | @settle job e now =>
    have hfits := hv job rfl
    cases hj
    exact fits_endJob (hfits.with_flow _) now e
  | @fanOut job _ _ _ _ ha | @refan job _ _ _ _ _ ha =>
    have hfits := hv job rfl
    cases hj
    exact ⟨hfits.clamped, fun _ => hfits.live ha rfl⟩
  | report =>
    obtain ⟨job, hj', rfl⟩ := Option.map_eq_some_iff.mp hj
    exact (hv job hj').with_flow _
  | remove | prune => cases hj

/-! ## Operations -/

variable {backoffDelayMs : Option BackoffPolicy → ℕ → Millis}

/-- An ack of a retry leaves an attempt, since the locked job is as it was claimed. -/
theorem ack_retry_fits {s : Claims V} (hs : ClaimsInv s) {now : Millis} {id : JobId} {token : String}
    {delayMs : Millis} {exit : Option V}
    (hop : Op.Routed backoffDelayMs s (.ack id token (.retry delayMs exit)))
    (h : FitsAt (s.store.toCore.view id)) :
    FitsAt ((exec s.store now (.ack id token (.retry delayMs exit))).toCore.view id) := by
  have hk := hs.records.flow.keyed
  cases hres : (ack s.store now id token (.retry delayMs exit)).1 with
  | error e =>
    rw [exec, ack_error hres]
    exact h
  | ok u =>
    obtain ⟨job, hj, ha, ht, heq⟩ := ack_ok hres
    obtain rfl := hk _ _ hj
    rw [exec, heq]
    rcases ackOutcome_cases hk now (.retry delayMs exit) hj ha with ⟨e, _, hfin⟩ |
      ⟨_, _, seq, _, hmove⟩ | ⟨_, _, hno⟩
    · refine hfin.view hk (I := FitsAt) (fun _ hj => by cases hj) ?_
      intro job' flow rows? hj' _ j hj''
      cases hj''
      exact fits_endJob ((h job' hj').with_flow flow) now e
    · obtain ⟨job', hj', _, hview⟩ := hmove.move_view hk
      cases hj.symm.trans hj'
      obtain ⟨record, hr, hsame⟩ := hs.locks job.id job token hj ht
      obtain ⟨record', hr', _, hroute⟩ := hop
      cases hr.symm.trans hr'
      have hleft := routeFailure_retry hroute
      rw [hview]
      intro j hj''
      cases hj''
      refine ⟨(h job hj).clamped, fun _ => ?_⟩
      show ((job.attemptsMade + 1 : ℕ) : ℤ) < job.attemptsMax
      rw [hsame.attempts.1, hsame.attempts.2]
      omega
    · cases hno

theorem enqueue_fits {s : Store V} {now : Millis}
    {request : EnqueueRequest V} {ids : IdSource} (hmax : 1 ≤ request.attemptsMax)
    (hsafe : ∀ keyed, replaceTarget? s request = some keyed →
      (keyed.attemptsMade : ℤ) < request.attemptsMax) {id : JobId} (h : FitsAt (s.toCore.view id)) :
    FitsAt ((exec s now (.enqueue request ids)).toCore.view id) := by
  have hspec := enqueueOne_spec s now request ids
  rw [exec]
  generalize (enqueueOne s now request ids).1 = result at hspec
  generalize (enqueueOne s now request ids).2 = t at hspec ⊢
  cases hspec with
  | duplicate | pending | exhausted => exact h
  | windowed =>
    split
    · rw [setWindow_toCore]
      exact h
    · exact h
  | @replaced _ _ keyed ht =>
    rw [signalWake_toCore, setWindow_toCore, putJob_toCore, putJob_view]
    split
    · intro j hj
      cases hj
      exact ⟨hmax, fun _ => hsafe keyed ht⟩
    · exact h
  | inserted =>
    rw [insertFresh_toCore, putJob_view]
    split
    · intro j hj
      cases hj
      refine ⟨hmax, fun _ => ?_⟩
      show ((0 : ℕ) : ℤ) < request.attemptsMax
      omega
    · exact h

theorem exec_fits {s : Claims V} (hs : ClaimsInv s) {now : Millis} {op : Op V}
    (hop : Op.Routed backoffDelayMs s op) (hsafe : LeavesBudget s (now, op)) {id : JobId}
    (h : FitsAt (s.store.toCore.view id)) : FitsAt ((exec s.store now op).toCore.view id) := by
  have hk := hs.records.flow.keyed
  have hlabels : (∀ l, Allows now op l → (∀ request t seq, l = .insert id request t seq →
        1 ≤ request.attemptsMax) ∧ (∀ request t, l ≠ .move id (.replace request t)) ∧
        ∀ delayMs exit t seq, l ≠ .move id (.requeue delayMs exit t seq)) →
      FitsAt ((exec s.store now op).toCore.view id) := fun hl =>
    (exec_does hk now op).view hk id (I := FitsAt)
      (fun l v v' hallows hstep _ hv => hv.step hstep (hl l hallows).1 (hl l hallows).2.1
        (hl l hallows).2.2) h
  cases op with
  | enqueue request ids => exact enqueue_fits hop hsafe h
  | ack id' token outcome =>
    by_cases hretry : id = id' ∧ ∃ delayMs exit, outcome = .retry delayMs exit
    · obtain ⟨rfl, delayMs, exit, rfl⟩ := hretry
      exact ack_retry_fits hs hop h
    · refine hlabels fun l hl => ?_
      refine ⟨?_, ?_, ?_⟩
      · rintro request t seq rfl
        cases hl
      · rintro request t rfl
        cases hl
      · rintro delayMs exit t seq rfl
        cases hl
        exact hretry ⟨rfl, _, _, rfl⟩
  | resumeEnqueue request candidate =>
    refine hlabels fun l hl => ?_
    cases hl
    refine ⟨?_, fun _ _ => nofun, fun _ _ _ _ => nofun⟩
    rintro _ _ _ ⟨⟩
    exact hop
  | tickSchedule key expectedRunAt nextRunAt request =>
    refine hlabels fun l hl => ?_
    cases hl
    refine ⟨?_, fun _ _ => nofun, fun _ _ _ _ => nofun⟩
    rintro _ _ _ ⟨⟩
    exact hop
  | _ =>
    refine hlabels fun l hl => ?_
    cases hl <;> exact ⟨fun _ _ _ => nofun, fun _ _ => nofun, fun _ _ _ _ => nofun⟩

/-! ## Runs -/

/-- What safe steps keep: every job fits its limit, and so did every record when it was claimed. -/
structure BudgetInv (s : Claims V) : Prop where
  claims : ClaimsInv s
  fits : ∀ id, FitsAt (s.store.toCore.view id)
  runs : ∀ token record, s.claims.get? token = some (some record) →
    (record.attemptsMade : ℤ) + 1 ≤ record.attemptsMax

theorem BudgetInv.inBudget {s : Claims V} (h : BudgetInv s) : InBudget s where
  jobs := by
    intro id job hj hst
    have hfits := h.fits id job hj
    rcases hst with hst | hst | hst
    · exact hfits.live hst rfl
    · exact hfits.live hst rfl
    · exact hfits.live hst rfl
  runs := h.runs

theorem BudgetInv.step {s t : Claims V} {e : Millis × Op V} (hs : BudgetStep backoffDelayMs s e t)
    (hsafe : LeavesBudget s e) (h : BudgetInv s) : BudgetInv t := by
  obtain ⟨⟨hfresh, rfl⟩, hop⟩ := hs
  have hfits : ∀ id, FitsAt ((exec s.store e.1 e.2).toCore.view id) :=
    fun id => exec_fits h.claims hop hsafe (h.fits id)
  refine ⟨h.claims.exec e.1 hfresh, hfits, fun token record hr => ?_⟩
  rcases Claims.exec_claimed hr with hr | ⟨options, hop', _, hclaim⟩
  · exact h.runs token record hr
  · obtain ⟨job, hj, rfl, ha, _⟩ := claim_claimed hclaim
    rw [hop'] at hfits
    exact (hfits _ job hj).live ha rfl

/-- An unsafe replace leaves its job over its limit. -/
theorem leavesBudget_of_inBudget {s t : Claims V} {e : Millis × Op V}
    (hs : BudgetStep backoffDelayMs s e t) (ht : InBudget t) : LeavesBudget s e := by
  obtain ⟨⟨_, rfl⟩, _⟩ := hs
  obtain ⟨now, op⟩ := e
  cases op with
  | enqueue request ids =>
    intro keyed hkeyed
    have hspec := enqueueOne_spec s.store now request ids
    have hjobs : ∀ id job, (enqueueOne s.store now request ids).2.jobs.get? id = some job →
        job.state = .waiting ∨ job.state = .delayed ∨ job.state = .active →
        (job.attemptsMade : ℤ) < job.attemptsMax := ht.jobs
    generalize (enqueueOne s.store now request ids).1 = result at hspec
    generalize (enqueueOne s.store now request ids).2 = u at hspec hjobs
    cases hspec with
    | @replaced dedupe entry keyed' ht' _ _ _ hst =>
      cases hkeyed.symm.trans ht'
      refine hjobs keyed.id (replaceJob keyed request now) ?_ (.inr (.inl hst))
      rw [signalWake_toCore, setWindow_toCore, putJob_toCore]
      exact (putJob_get? ..).trans (if_pos rfl)
    | duplicate ht' | windowed ht' | pending ht' | inserted _ ht' | exhausted _ ht' =>
      cases hkeyed.symm.trans ht'
  | _ => trivial

/-- Along every run, every waiting, delayed or active job has an attempt left and no run starts
beyond its job's limit, exactly if every replace that lands leaves its job attempts. -/
theorem attempts_in_budget_iff (es : List (Millis × Op V)) (u : Claims V) :
    Always (BudgetStep backoffDelayMs) ⟨Store.empty, ∅⟩ es u InBudget ↔
      EachStep (BudgetStep backoffDelayMs) ⟨Store.empty, ∅⟩ es u LeavesBudget := by
  have hstart : BudgetInv (⟨Store.empty, ∅⟩ : Claims V) := by
    refine ⟨reachable_claimsInv ⟨_, [], rfl, .refl _⟩, fun id job hj => ?_, fun token record hr => ?_⟩
    · cases hj
    · cases hr
  constructor
  · exact fun hall => hall.eachStep fun s e t hs _ ht => leavesBudget_of_inBudget hs ht
  · exact fun hsafe => (hsafe.always (fun s e t hs hsafe h => h.step hs hsafe) hstart).mono
      fun s h => h.inBudget

end Budget

/-! ## A replace that lowers the limit -/

def fixedDelayMs (backoff : Option BackoffPolicy) (_ : ℕ) : Millis :=
  match backoff with
  | none => 0
  | some policy => policy.delayMs

def keyedRequest (attemptsMax : ℤ) : EnqueueRequest Unit :=
  { EnqueueRequest.plain "j" "job" "q" () with
    id := none
    attemptsMax
    backoff := some ⟨.fixed, 5, none⟩
    dedupe := some ⟨"k", none, false, true⟩ }

/-- A job of two attempts fails once, and while it is delayed a replace allows it one. -/
def loweredLimit : List (Millis × Op Unit) :=
  [(0, .enqueue (keyedRequest 2) (.generator ["j"])), (1, .claim ⟨"q", ["job"], "t", 30⟩),
    (2, .ack "j" "t" (.retry 5 none)), (3, .enqueue (keyedRequest 1) (.generator ["k"])),
    (8, .claim ⟨"q", ["job"], "u", 30⟩)]

/-- Its second run starts as attempt two of one. -/
theorem loweredLimit_over :
    ¬ ∀ s : Claims Unit, Reachable ClaimStart (BudgetStep fixedDelayMs) s → InBudget s := by
  intro h
  have hrun : Run (BudgetStep fixedDelayMs) ⟨Store.empty, ∅⟩ loweredLimit _ :=
    .cons ⟨⟨trivial, rfl⟩, (one_le_two : (1 : ℤ) ≤ 2)⟩ (.cons ⟨⟨rfl, rfl⟩, trivial⟩
      (.cons ⟨⟨trivial, rfl⟩, ⟨_, rfl, rfl, rfl⟩⟩ (.cons ⟨⟨trivial, rfl⟩, le_refl (1 : ℤ)⟩
        (.cons ⟨⟨rfl, rfl⟩, trivial⟩ (.refl _)))))
  have hover := (h _ ⟨_, _, rfl, hrun⟩).runs "u" _ rfl
  exact absurd hover (by decide)

end EffectMq.Worker
