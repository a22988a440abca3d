import EffectMq.MemoryJobStore.Records

/-! # Claims and their tokens

A store together with the record that the claim under each token returned. Workers never use a token
twice. While the lock of a claim is on its job, the job is still the claimed record but for a cancel
request (`ClaimsInv`); once it is off, the token is refused for good (`one_settle`).
-/

namespace EffectMq.Memory
set_option autoImplicit false
set_option maxHeartbeats 250000

open Transition

variable {V : Type}

/-! ## State -/

/-- Under a used token, the record its claim returned, if it returned one. -/
structure Claims (V : Type) where
  store : Store V
  claims : JsMap String (Option (JobRecord V))
  deriving DecidableEq

def ClaimResult.job? : ClaimResult V → Option (JobRecord V)
  | .claimed job => some job
  | .empty _ _ => none

def Claims.exec (s : Claims V) (now : Millis) (op : Op V) : Claims V where
  store := Memory.exec s.store now op
  claims := match op with
    | .claim options => s.claims.set options.token (claim s.store now options).1.job?
    | _ => s.claims

/-- A claim uses a token that was never used. -/
def Op.Fresh (s : Claims V) : Op V → Prop
  | .claim options => s.claims.get? options.token = none
  | _ => True

def ClaimStep (s : Claims V) (e : Millis × Op V) (t : Claims V) : Prop :=
  e.2.Fresh s ∧ t = s.exec e.1 e.2

def ClaimStart (s : Claims V) : Prop := s = ⟨Store.empty, ∅⟩

/-! ## Locked jobs are claimed records -/

/-- A locked job is as it was claimed, but for a cancel request. -/
def Unchanged (record : JobRecord V) (job : MemJob V) : Prop :=
  snapshot job = { record with cancelRequested := job.cancelRequested }

theorem Unchanged.id {record : JobRecord V} {job : MemJob V} (h : Unchanged record job) :
    job.id = record.id := by
  have h : snapshot job = { record with cancelRequested := job.cancelRequested } := h
  have hid := congrArg JobRecord.id h
  exact hid

theorem Unchanged.payload {record : JobRecord V} {job : MemJob V} (h : Unchanged record job) :
    job.payload = record.payload := by
  have h : snapshot job = { record with cancelRequested := job.cancelRequested } := h
  have hpayload := congrArg JobRecord.payload h
  exact hpayload

theorem Unchanged.attempts {record : JobRecord V} {job : MemJob V} (h : Unchanged record job) :
    job.attemptsMade = record.attemptsMade ∧ job.attemptsMax = record.attemptsMax := by
  have h : snapshot job = { record with cancelRequested := job.cancelRequested } := h
  have hmade := congrArg JobRecord.attemptsMade h
  have hmax := congrArg JobRecord.attemptsMax h
  exact ⟨hmade, hmax⟩

/-- A lock outlives a step on an unchanged job, or the step is its claim. -/
theorem ViewStep.locked {id : JobId} {l : Label V} {v v' : View V} (h : ViewStep id l v v')
    (hb : Booked Covers v) (hw : v.WellFormed) {job' : MemJob V} {token : String}
    (hj : v'.job = some job') (ht : job'.lockToken = some token) :
    (∃ job, v.job = some job ∧ job.lockToken = some token ∧ Unchanged (snapshot job) job') ∨
      ∃ options now, l = .move id (.claim options now) ∧ options.token = token := by
  have hfree : ∀ {job : MemJob V} {st : JobState}, v.job = some job → job.state = st →
      st ≠ .active → job.lockToken = some token → False := by
    rintro job st hj rfl hst ht
    cases ht.symm.trans ((hw job hj).unlocked hst).1
  cases h with
  | same | rearm | cascade => exact .inl ⟨job', hj, ht, rfl⟩
  | insert =>
    cases hj
    cases ht
  | promote _ _ hd =>
    cases hj
    exact (hfree rfl hd (by decide) ht).elim
  | @move job m _ hm =>
    cases hj
    cases m with
    | claim options now => exact .inr ⟨options, now, rfl, Option.some.inj ht⟩
    | requeue | release | stall => cases ht
    | extend | requestCancel => exact .inl ⟨job, rfl, ht, rfl⟩
    | replace | promoteNow | retry => exact (hfree rfl hm (by decide) ht).elim
    | resume => exact (hfree rfl hm.1 (by decide) ht).elim
  | finish e _ _ he | settle e _ _ he =>
    cases hj
    cases e with
    | failFast => exact (hfree rfl he (by decide) ht).elim
    | _ => cases ht
  | fanOut | refan =>
    cases hj
    cases ht
  | report _ _ _ hrow hp =>
    obtain ⟨job, hj', rfl⟩ := Option.map_eq_some_iff.mp hj
    obtain ⟨_, hj'', hparked⟩ := hb.parked_of_pending hrow hp
    cases hj'.symm.trans hj''
    exact (hfree hj' hparked (by decide) ht).elim
  | remove | prune => cases hj

theorem exec_locked {s : Store V} (h : RecordInv s) (now : Millis) (op : Op V) {id : JobId}
    {job' : MemJob V} {token : String} (hj : (exec s now op).jobs.get? id = some job')
    (ht : job'.lockToken = some token) :
    (∃ job, s.jobs.get? id = some job ∧ job.lockToken = some token ∧
      Unchanged (snapshot job) job') ∨ ∃ options, op = .claim options ∧ options.token = token := by
  let Kept : View V → Prop := fun v => ∀ job', v.job = some job' → job'.lockToken = some token →
    (∃ job, s.jobs.get? id = some job ∧ job.lockToken = some token ∧
      Unchanged (snapshot job) job') ∨ ∃ options, op = .claim options ∧ options.token = token
  let I : View V → Prop := fun v => Booked Covers v ∧ v.WellFormed ∧ Kept v
  have hI : I ((exec s now op).toCore.view id) := by
    refine (exec_does h.flow.keyed now op).view h.flow.keyed id (I := I) ?_
      ⟨h.flow.covered id, h.wellFormed id, fun job hj ht => .inl ⟨job, hj, ht, rfl⟩⟩
    rintro l v v' hl hstep _ ⟨hb, hw, hkept⟩
    refine ⟨hb.step covers_accounts hstep (hl.fans op.fans_all), hw.step hstep, ?_⟩
    intro job' hj ht
    rcases hstep.locked hb hw hj ht with ⟨mid, hmid, htm, hsame⟩ | ⟨options, t, rfl, htok⟩
    · rcases hkept mid hmid htm with ⟨job, hj₀, ht₀, hsame₀⟩ | hclaim
      · refine .inl ⟨job, hj₀, ht₀, ?_⟩
        unfold Unchanged at hsame hsame₀ ⊢
        rw [hsame, hsame₀]
      · exact .inr hclaim
    · cases hl
      exact .inr ⟨options, rfl, htok⟩
  exact hI.2.2 job' hj ht

/-- The record a claim returns is that of an active job, locked under its token. -/
theorem claim_claimed {s : Store V} {now : Millis} {options : ClaimOptions} {record : JobRecord V}
    (h : (claim s now options).1 = .claimed record) :
    ∃ job, (claim s now options).2.jobs.get? record.id = some job ∧ snapshot job = record ∧
      job.state = .active ∧ job.lockToken = some options.token := by
  unfold claim at h ⊢
  simp only at h ⊢
  split at h
  · split at h
    · cases h
    · rename_i best hbest hpaused
      cases h
      rw [if_neg hpaused]
      refine ⟨claimJob best options now, ?_, rfl, rfl, rfl⟩
      exact (putJob_get? ..).trans (if_pos rfl)
  · cases h

/-- A claimed record was one before, or the operation is its claim. -/
theorem Claims.exec_claimed {s : Claims V} {now : Millis} {op : Op V} {token : String}
    {record : JobRecord V} (h : (s.exec now op).claims.get? token = some (some record)) :
    s.claims.get? token = some (some record) ∨
      ∃ options, op = .claim options ∧ options.token = token ∧
        (claim s.store now options).1 = .claimed record := by
  cases op with
  | claim options =>
    simp only [Claims.exec, JsMap.get?_set] at h
    split at h
    · rename_i htok
      cases hclaim : (claim s.store now options).1 with
      | empty =>
        rw [hclaim] at h
        cases h
      | claimed record' =>
        rw [hclaim] at h
        cases h
        exact .inr ⟨options, rfl, htok.symm, hclaim⟩
    · exact .inl h
  | _ => exact .inl h

structure ClaimsInv (s : Claims V) : Prop where
  records : RecordInv s.store
  locks : ∀ id job token, s.store.jobs.get? id = some job → job.lockToken = some token →
    ∃ record, s.claims.get? token = some (some record) ∧ Unchanged record job

theorem ClaimsInv.exec {s : Claims V} (h : ClaimsInv s) (now : Millis) {op : Op V}
    (hop : op.Fresh s) : ClaimsInv (s.exec now op) where
  records := h.records.exec now op
  locks := by
    intro id job' token hj ht
    rcases exec_locked h.records now op hj ht with ⟨job, hj₀, ht₀, hsame⟩ | ⟨options, rfl, rfl⟩
    · obtain ⟨record, hr, hrecord⟩ := h.locks id job token hj₀ ht₀
      refine ⟨record, ?_, ?_⟩
      · cases op with
        | claim options =>
          have hne : token ≠ options.token := by
            rintro rfl
            cases hr.symm.trans hop
          simp only [Claims.exec, JsMap.get?_set, if_neg hne, hr]
        | _ => exact hr
      · unfold Unchanged at hsame hrecord ⊢
        rw [hsame, hrecord]
    · rcases claim_lockToken now options hj ht with ⟨job, hj₀, ht₀⟩ | ⟨hclaimed, _⟩
      · obtain ⟨record, hr, _⟩ := h.locks id job _ hj₀ ht₀
        cases hr.symm.trans hop
      · refine ⟨snapshot job', ?_, rfl⟩
        simp only [Claims.exec, JsMap.get?_set, if_true, hclaimed, ClaimResult.job?]

theorem reachable_claimsInv {s : Claims V} (h : Reachable ClaimStart ClaimStep s) :
    ClaimsInv s := by
  refine h.induct (I := ClaimsInv) ?_ ?_
  · rintro s rfl
    exact ⟨⟨.empty Covers, fun _ _ h => by cases h⟩, fun _ _ _ h => by cases h⟩
  · rintro s e t ⟨hop, rfl⟩ hs
    exact hs.exec e.1 hop

/-- A token locks at most one job. -/
theorem ClaimsInv.one_job {s : Claims V} (h : ClaimsInv s) {id id' : JobId} {token : String}
    (hl : HoldsLock s.store id token) (hl' : HoldsLock s.store id' token) : id = id' := by
  obtain ⟨job, hj, ht⟩ := hl
  obtain ⟨job', hj', ht'⟩ := hl'
  obtain ⟨record, hr, hsame⟩ := h.locks id job token hj ht
  obtain ⟨record', hr', hsame'⟩ := h.locks id' job' token hj' ht'
  cases hr.symm.trans hr'
  rw [← h.records.flow.keyed _ _ hj, ← h.records.flow.keyed _ _ hj', hsame.id, hsame'.id]

/-! ## A token is taken off its job once -/

def View.Unlocked (v : View V) (token : String) : Prop :=
  ∀ job, v.job = some job → job.lockToken ≠ some token

theorem not_holdsLock {s : Store V} {id : JobId} {token : String}
    (h : (s.toCore.view id).Unlocked token) : ¬ HoldsLock s id token := by
  rintro ⟨job, hj, ht⟩
  exact h job hj ht

theorem View.Unlocked.of_none {job : MemJob V} {rows? : Option (Rows V)} (token : String)
    (h : job.lockToken = none) : (⟨some job, rows?⟩ : View V).Unlocked token := by
  intro j hj ht
  cases hj
  cases h.symm.trans ht

/-- A terminal transition of an active job clears its lock. -/
theorem Core.Finishes.unlocked {c d : Core V} {id : JobId} {e : Ending V} {now : Millis}
    (h : c.Finishes id e now d) (hk : c.Keyed) (he : ∀ childKey, e ≠ .failFast childKey)
    (token : String) : (d.view id).Unlocked token := by
  refine h.view hk (I := fun v => v.Unlocked token) (fun _ hj => by cases hj)
    fun job flow rows? _ _ => .of_none token ?_
  cases e with
  | failFast childKey => exact absurd rfl (he childKey)
  | _ => rfl

theorem AckEnds.ne_failFast {outcome : AckOutcome V} {e : Ending V} (h : AckEnds outcome e)
    (childKey : String) : e ≠ .failFast childKey := by
  cases h <;> nofun

theorem ackFanOut_unlocked {s : Store V} (hk : s.toCore.Keyed) {job : MemJob V} (now : Millis)
    (failFast : Bool) (children : List (FlowChildSpec V)) (hj : s.jobs.get? job.id = some job)
    (ha : job.state = .active) (token : String) :
    ((ackFanOut s now (clearLock job) failFast children).toCore.view job.id).Unlocked token := by
  have hpark : Step s.toCore (.park job.id failFast children now)
      (s.toCore.park job failFast children now) := .park failFast children now hj ha
  have hk' := hpark.keyed hk
  rcases ackFanOut_cases hk now failFast children hj ha with ⟨_, hfin⟩ | ⟨_, seq, hmove⟩ |
    ⟨_, _, heq⟩
  · exact hfin.unlocked hk' (fun _ h => by cases h) token
  · obtain ⟨job', hj', _, hview⟩ := hmove.move_view hk'
    rw [park_get?, if_pos rfl] at hj'
    cases hj'
    rw [hview]
    exact .of_none token rfl
  · rw [heq, Core.view, park_get?, if_pos rfl]
    exact .of_none token rfl

theorem ackOutcome_unlocked {s : Store V} (hk : s.toCore.Keyed) {job : MemJob V} (now : Millis)
    (outcome : AckOutcome V) (hj : s.jobs.get? job.id = some job) (ha : job.state = .active)
    (token : String) :
    ((ackOutcome s now job outcome).toCore.view job.id).Unlocked token := by
  rcases ackOutcome_cases hk now outcome hj ha with ⟨e, he, hfin⟩ | ⟨_, _, seq, _, hmove⟩ |
    ⟨failFast, children, rfl⟩
  · exact hfin.unlocked hk he.ne_failFast token
  · obtain ⟨job', _, _, hview⟩ := hmove.move_view hk
    rw [hview]
    exact .of_none token rfl
  · exact ackFanOut_unlocked hk now failFast children hj ha token

/-- The operation is a successful ack or release of the job under this token. -/
inductive SettlesClaim (s : Store V) (now : Millis) (id : JobId) (token : String) : Op V → Prop
  | ack (outcome : AckOutcome V) (h : (ack s now id token outcome).1 = .ok ()) :
      SettlesClaim s now id token (.ack id token outcome)
  | release (h : (release s now id token).1 = .ok ()) :
      SettlesClaim s now id token (.release id token)

/-- The operation is a stall recovery that finds the lock under this token expired. -/
def RecoversClaim (s : Store V) (now : Millis) (id : JobId) (token : String) (op : Op V) : Prop :=
  (∃ maxStalledCount, op = .recoverStalled maxStalledCount) ∧
    ∃ job expiresAt, s.jobs.get? id = some job ∧ job.state = .active ∧
      job.lockToken = some token ∧ job.lockExpiresAt = some expiresAt ∧ expiresAt ≤ now

theorem SettlesClaim.holdsLock {s : Store V} (hk : s.toCore.Keyed) {now : Millis} {id : JobId}
    {token : String} {op : Op V} (h : SettlesClaim s now id token op) : HoldsLock s id token := by
  cases h with
  | ack _ h =>
    obtain ⟨job, hj, _, ht, _⟩ := ack_ok h
    exact ⟨job, hj, ht⟩
  | release h =>
    obtain ⟨job, hj, _, ht, _⟩ := release_ok hk h
    exact ⟨job, hj, ht⟩

theorem SettlesClaim.unlocks {s : Store V} (hk : s.toCore.Keyed) {now : Millis} {id : JobId}
    {token : String} {op : Op V} (h : SettlesClaim s now id token op) :
    ¬ HoldsLock (exec s now op) id token := by
  refine not_holdsLock ?_
  cases h with
  | ack outcome h =>
    obtain ⟨job, hj, ha, _, heq⟩ := ack_ok h
    obtain rfl := hk _ _ hj
    rw [exec, heq]
    exact ackOutcome_unlocked hk now outcome hj ha token
  | release h =>
    obtain ⟨_, _, _, _, hfin | hmove⟩ := release_ok hk h
    · exact hfin.unlocked hk (fun _ h => by cases h) token
    · obtain ⟨_, _, _, hview⟩ := hmove.move_view hk
      rw [exec, hview]
      exact .of_none token rfl

/-! ## Stall recovery -/

/-- An iteration for another job leaves an active record alone. -/
theorem recoverJob_other (now : Millis) (maxStalledCount : ℤ) (acc : List Recovered × Store V)
    {id id' : JobId} (hk : acc.2.toCore.Keyed) (hne : id ≠ id') {job : MemJob V}
    (hj : acc.2.jobs.get? id = some job) (ha : job.state = .active) :
    (recoverJob now maxStalledCount acc id').2.jobs.get? id = some job := by
  let P : Label V → Prop := fun l => l.IsPrune ∨ l = .move id' (.stall now) ∨
    l = .finish id' .stalled now ∨ l = .finish id' .cancelled now
  have hdoes : Does P acc.2.toCore (recoverJob now maxStalledCount acc id').2.toCore :=
    recoverJob_does now maxStalledCount acc id' hk (by simp [P]) (by simp [P]) (by simp [P])
      fun _ => .inl trivial
  refine hdoes.view hk id (I := fun v => v.job = some job) (fun l v v' hl hstep _ hv => ?_) hj
  rcases hl with hl | rfl | rfl | rfl
  · cases hstep with
    | same => exact hv
    | prune _ ht =>
      have ht := ht job hv
      rw [ha] at ht
      cases ht
    | _ => exact hl.elim
  · cases hstep with
    | same => exact hv
    | move => exact absurd rfl hne
  all_goals
    cases hstep with
    | same => exact hv
    | finish | settle => exact absurd rfl hne

theorem View.Unlocked.step {id : JobId} {l : Label V} {v v' : View V} {token : String}
    (h : ViewStep id l v v') (hl : ∀ options now, l ≠ .move id (.claim options now))
    (hv : v.Unlocked token) : v'.Unlocked token := by
  intro job' hj ht
  rcases h.lockToken hj ht with ⟨job, hj', ht', _⟩ | ⟨options, now, hclaim, _⟩
  · exact hv job hj' ht'
  · exact hl options now hclaim

theorem recoverJob_unlocked (now : Millis) (maxStalledCount : ℤ) (acc : List Recovered × Store V)
    {id : JobId} (id' : JobId) (hk : acc.2.toCore.Keyed) {token : String}
    (h : (acc.2.toCore.view id).Unlocked token) :
    ((recoverJob now maxStalledCount acc id').2.toCore.view id).Unlocked token := by
  have hdoes : Does (fun l : Label V => ∀ options t, l ≠ .move id (.claim options t)) acc.2.toCore
      (recoverJob now maxStalledCount acc id').2.toCore :=
    recoverJob_does now maxStalledCount acc id' hk (by simp) (by simp) (by simp) (by simp)
  exact hdoes.view hk id (I := fun v => v.Unlocked token)
    (fun l v v' hl hstep _ hv => hv.step hstep hl) h

/-- The loop takes an expired lock off its job. -/
theorem recoverJobs_unlocked (now : Millis) (maxStalledCount : ℤ) {id : JobId} {job : MemJob V}
    {expiresAt : Millis} (token : String) (ha : job.state = .active)
    (he : job.lockExpiresAt = some expiresAt) (hle : expiresAt ≤ now) (ids : List JobId) :
    ∀ acc : List Recovered × Store V, acc.2.toCore.Keyed →
      ((acc.2.toCore.view id).Unlocked token ∨ id ∈ ids ∧ acc.2.jobs.get? id = some job) →
      ((ids.foldl (recoverJob now maxStalledCount) acc).2.toCore.view id).Unlocked token := by
  induction ids with
  | nil =>
    rintro acc hk (h | ⟨hm, _⟩)
    · exact h
    · cases hm
  | cons id' ids ih =>
    intro acc hk h
    have hdoes : Does (fun _ => True) acc.2.toCore
        (recoverJob now maxStalledCount acc id').2.toCore :=
      recoverJob_does now maxStalledCount acc id' hk trivial trivial trivial fun _ => trivial
    refine ih _ (hdoes.keyed hk) ?_
    rcases h with h | ⟨hm, hj⟩
    · exact .inl (recoverJob_unlocked now maxStalledCount acc id' hk h)
    · by_cases hid : id = id'
      · subst hid
        obtain rfl := hk _ _ hj
        rcases recoverJob_expired now maxStalledCount acc hk hj ha he hle with
          ⟨e, hend, hfin⟩ | hmove
        · refine .inl (hfin.unlocked hk (fun childKey => ?_) token)
          rcases hend with rfl | rfl <;> nofun
        · obtain ⟨_, _, _, hview⟩ := hmove.move_view hk
          rw [hview]
          exact .inl (.of_none token rfl)
      · refine .inr ⟨(List.mem_cons.mp hm).resolve_left hid, ?_⟩
        exact recoverJob_other now maxStalledCount acc hk hid hj ha

theorem recoverStalled_toCore (s : Store V) (now : Millis) (maxStalledCount : ℤ) :
    (recoverStalled s now maxStalledCount).2.toCore =
      (s.jobs.keys.foldl (recoverJob now maxStalledCount) ([], s)).2.toCore := by
  unfold recoverStalled
  simp only
  split
  · rw [signalWake_toCore]
  · rfl

theorem RecoversClaim.unlocks {s : Store V} (hk : s.toCore.Keyed) {now : Millis} {id : JobId}
    {token : String} {op : Op V} (h : RecoversClaim s now id token op) :
    ¬ HoldsLock (exec s now op) id token := by
  obtain ⟨⟨maxStalledCount, rfl⟩, job, expiresAt, hj, ha, _, he, hle⟩ := h
  refine not_holdsLock ?_
  rw [exec, recoverStalled_toCore]
  exact recoverJobs_unlocked now maxStalledCount token ha he hle _ ([], s) hk
    (.inr ⟨JsMap.mem_keys.mpr ⟨job, hj⟩, hj⟩)

/-! ## A token that is off its job is refused -/

/-- Every ack and release of the job under this token is refused, and every heartbeat reports the job
as lost. -/
structure Refused (s : Store V) (id : JobId) (token : String) : Prop where
  ack : ∀ now outcome, (ack s now id token outcome).1 = .error (.lockLost id) ∨
    (Memory.ack s now id token outcome).1 = .error (.jobNotFound id)
  release : ∀ now, (release s now id token).1 = .error (.lockLost id) ∨
    (Memory.release s now id token).1 = .error (.jobNotFound id)
  extendLocks : ∀ now durationMs locks, ⟨id, token⟩ ∈ locks →
    id ∈ (extendLocks s now locks durationMs).1.lost

/-- A job that is not locked under the token of `lock` is lost, and stays on the list. -/
theorem extendLock_lost (now durationMs : Millis) (acc : ExtendLocksResult × Store V) (lock : Lock)
    {id : JobId} {token : String} (h : (acc.2.toCore.view id).Unlocked token)
    (hm : id ∈ acc.1.lost ∨ lock = ⟨id, token⟩) :
    id ∈ (extendLock now durationMs acc lock).1.lost := by
  rcases hm with hm | rfl
  · unfold extendLock
    simp only
    split
    · exact List.mem_append_left _ hm
    · split
      · exact List.mem_append_left _ hm
      · split <;> exact hm
  · unfold extendLock
    simp only
    split
    · exact List.mem_append_right _ (List.mem_singleton.mpr rfl)
    · rename_i job hj
      rw [if_pos (.inr (h job hj))]
      exact List.mem_append_right _ (List.mem_singleton.mpr rfl)

theorem extendLocks_lost (now durationMs : Millis) {id : JobId} {token : String} (locks : List Lock) :
    ∀ acc : ExtendLocksResult × Store V, acc.2.toCore.Keyed →
      (acc.2.toCore.view id).Unlocked token → (id ∈ acc.1.lost ∨ ⟨id, token⟩ ∈ locks) →
      id ∈ (locks.foldl (extendLock now durationMs) acc).1.lost := by
  induction locks with
  | nil =>
    rintro acc _ _ (h | h)
    · exact h
    · cases h
  | cons lock locks ih =>
    intro acc hk hu hm
    have hdoes : Does (fun l : Label V => ∀ options t, l ≠ .move id (.claim options t)) acc.2.toCore
        (extendLock now durationMs acc lock).2.toCore :=
      extendLock_does now durationMs acc lock (by simp)
    have hu' := hdoes.view hk id (I := fun v => v.Unlocked token)
      (fun l v v' hl hstep _ hv => hv.step hstep hl) hu
    refine ih _ (hdoes.keyed hk) hu' ?_
    rcases hm with hm | hm
    · exact .inl (extendLock_lost now durationMs acc lock hu (.inl hm))
    · rcases List.mem_cons.mp hm with heq | hm
      · exact .inl (extendLock_lost now durationMs acc lock hu (.inr heq.symm))
      · exact .inr hm

theorem refused_of_not_holdsLock {s : Store V} (hk : s.toCore.Keyed) {id : JobId} {token : String}
    (h : ¬ HoldsLock s id token) : Refused s id token := by
  have hu : (s.toCore.view id).Unlocked token := fun job hj ht => h ⟨job, hj, ht⟩
  refine ⟨fun now outcome => ?_, fun now => ?_, fun now durationMs locks hm => ?_⟩
  · unfold Memory.ack
    split
    · exact .inr rfl
    · rename_i job hj
      rw [if_pos (.inr (hu job hj))]
      exact .inl rfl
  · unfold Memory.release
    split
    · exact .inr rfl
    · rename_i job hj
      rw [if_pos (.inr (hu job hj))]
      exact .inl rfl
  · exact extendLocks_lost now durationMs locks (⟨[], []⟩, s) hk hu (.inr hm)

/-! ## Runs -/

/-- The claim under this token has been made and its lock is on no job. -/
def Spent (s : Claims V) (token : String) : Prop :=
  (s.claims.get? token).isSome ∧ ∀ id, ¬ HoldsLock s.store id token

theorem ClaimStep.used {s t : Claims V} {e : Millis × Op V} (h : ClaimStep s e t) {token : String}
    (hu : (s.claims.get? token).isSome) : (t.claims.get? token).isSome := by
  obtain ⟨_, rfl⟩ := h
  cases hop : e.2 with
  | claim options =>
    simp only [Claims.exec, JsMap.get?_set]
    split
    · rfl
    · exact hu
  | _ => simpa only [Claims.exec, hop] using hu

theorem ClaimStep.holdsLock {s t : Claims V} {e : Millis × Op V} (hs : ClaimsInv s)
    (h : ClaimStep s e t) {id : JobId} {token : String} (hu : (s.claims.get? token).isSome)
    (hl : HoldsLock t.store id token) : HoldsLock s.store id token := by
  obtain ⟨hfresh, rfl⟩ := h
  rcases exec_holdsLock hs.records.flow.keyed e.1 e.2 hl with hl | ⟨options, hop, rfl⟩
  · exact hl
  · rw [hop] at hfresh
    rw [show s.claims.get? options.token = none from hfresh] at hu
    cases hu

theorem Spent.step {s t : Claims V} {e : Millis × Op V} (hs : ClaimsInv s) (h : ClaimStep s e t)
    {token : String} (hd : Spent s token) : Spent t token :=
  ⟨h.used hd.1, fun id hl => hd.2 id (h.holdsLock hs hd.1 hl)⟩

/-- The operation takes the lock of this claim off its job. -/
def Ejects (id : JobId) (token : String) (s : Claims V) (e : Millis × Op V) : Prop :=
  SettlesClaim s.store e.1 id token e.2 ∨ RecoversClaim s.store e.1 id token e.2

theorem Ejects.spent {s t : Claims V} {e : Millis × Op V} (hs : ClaimsInv s) (h : ClaimStep s e t)
    {id : JobId} {token : String} (he : Ejects id token s e) : Spent t token := by
  have hk := hs.records.flow.keyed
  have hheld : HoldsLock s.store id token := by
    rcases he with he | ⟨_, job, _, hj, _, ht, _⟩
    · exact he.holdsLock hk
    · exact ⟨job, hj, ht⟩
  have hoff : ¬ HoldsLock t.store id token := by
    obtain ⟨_, rfl⟩ := h
    rcases he with he | he
    · exact he.unlocks hk
    · exact he.unlocks hk
  obtain ⟨job, hj, ht⟩ := hheld
  obtain ⟨record, hr, _⟩ := hs.locks id job token hj ht
  have hu : (s.claims.get? token).isSome := by
    rw [hr]
    rfl
  refine ⟨h.used hu, fun id' hl => hoff ?_⟩
  have hid := hs.one_job ⟨job, hj, ht⟩ (h.holdsLock hs hu hl)
  rwa [hid]

/-- One settle per claim: no two tokens are accepted for a job, no claim is acked or released twice,
and a claim that was settled or recovered is refused from then on. -/
structure OneSettle (V : Type) (token : String) : Prop where
  unique : ∀ s : Claims V, Reachable ClaimStart ClaimStep s → ∀ id token' now now' op op',
    SettlesClaim s.store now id token op → SettlesClaim s.store now' id token' op' → token = token'
  once : AtMostOnce ClaimStart (ClaimStep (V := V)) fun s e _ =>
    ∃ id, SettlesClaim s.store e.1 id token e.2
  refused : ∀ (s t u : Claims V) e es id, Reachable ClaimStart ClaimStep s → ClaimStep s e t →
    Ejects id token s e → Run ClaimStep t es u → Refused u.store id token

theorem one_settle (token : String) : OneSettle V token where
  unique := by
    intro s hs id token' now now' op op' h h'
    have hk := (reachable_claimsInv hs).records.flow.keyed
    obtain ⟨job, hj, ht⟩ := h.holdsLock hk
    obtain ⟨job', hj', ht'⟩ := h'.holdsLock hk
    cases hj.symm.trans hj'
    exact Option.some.inj (ht.symm.trans ht')
  once := by
    refine .of_done (I := ClaimsInv) (D := fun s => Spent s token) (fun s hs => reachable_claimsInv hs)
      ?_ (fun s e t hI hs hd => hd.step hI hs) ?_
    · rintro s e t hI hs ⟨id, hsettles⟩
      exact Ejects.spent hI hs (.inl hsettles)
    · rintro s e t hI _ hd ⟨id, hsettles⟩
      exact hd.2 id (hsettles.holdsLock hI.records.flow.keyed)
  refused := by
    intro s t u e es id hs hstep he hr
    have hI := reachable_claimsInv hs
    have hkept := hr.preserves (I := fun s => ClaimsInv s ∧ Spent s token)
      (fun s e t hstep ⟨hI, hd⟩ => ⟨hstep.2 ▸ hI.exec e.1 hstep.1, hd.step hI hstep⟩)
      ⟨hstep.2 ▸ hI.exec e.1 hstep.1, he.spent hI hstep⟩
    exact refused_of_not_holdsLock hkept.1.records.flow.keyed (hkept.2.2 id)

end EffectMq.Memory
