import EffectMq.MemoryJobStore.FlowBooks

/-! # Job records

`WellFormed` is what every stored record satisfies: lock, cancel flag and outcome fields are set in
the states they belong to and in no other. A terminal record is permanent: `ViewStep.terminal` says
what an elementary step can still do to it, and the flow bookkeeping excludes that a late report
reaches the counters of a settled parent.
-/

namespace EffectMq.Memory
set_option autoImplicit false
set_option maxHeartbeats 250000

open Transition

variable {V : Type}

/-! ## Well-formed records -/

structure WellFormed (job : MemJob V) : Prop where
  locked : job.state = .active → job.lockToken.isSome ∧ job.lockExpiresAt.isSome
  unlocked : job.state ≠ .active → job.lockToken = none ∧ job.lockExpiresAt = none
  cancel : job.cancelRequested = true → job.state = .active
  finished : job.finishedAt.isSome ↔ job.state.isTerminal = true
  exit : job.exit.isSome → job.state = .completed ∨ job.state = .failed
  reason : job.failedReason.isSome → job.state = .failed

theorem WellFormed.clean {job : MemJob V} (h : WellFormed job) (ht : job.state.isTerminal = false) :
    job.finishedAt = none ∧ job.exit = none ∧ job.failedReason = none := by
  refine ⟨?_, ?_, ?_⟩
  · rw [← Option.not_isSome_iff_eq_none, h.finished, ht]
    decide
  · rw [← Option.not_isSome_iff_eq_none]
    intro he
    rcases h.exit he with hs | hs <;> rw [hs] at ht <;> cases ht
  · rw [← Option.not_isSome_iff_eq_none]
    intro hr
    rw [h.reason hr] at ht
    cases ht

theorem WellFormed.not_cancel {job : MemJob V} (h : WellFormed job) (ha : job.state ≠ .active) :
    job.cancelRequested = false :=
  Bool.eq_false_iff.mpr fun hc => ha (h.cancel hc)

/-- A record outside the active and terminal states carries no lock, flag or outcome. -/
theorem WellFormed.of_idle {job : MemJob V} (ha : job.state ≠ .active)
    (ht : job.state.isTerminal = false) (hl : job.lockToken = none ∧ job.lockExpiresAt = none)
    (hc : job.cancelRequested = false)
    (ho : job.finishedAt = none ∧ job.exit = none ∧ job.failedReason = none) : WellFormed job where
  locked h := absurd h ha
  unlocked _ := hl
  cancel h := by
    rw [hc] at h
    cases h
  finished := by simp [ho.1, ht]
  exit h := by simp [ho.2.1] at h
  reason h := by simp [ho.2.2] at h

theorem wellFormed_newJob (id : JobId) (request : EnqueueRequest V) (now : Millis) (seq : ℕ) :
    WellFormed (newJob id request now seq) := by
  have hst : (newJob id request now seq).state = .delayed ∨
      (newJob id request now seq).state = .waiting := by
    simp only [newJob]
    split <;> simp
  refine .of_idle ?_ ?_ ⟨rfl, rfl⟩ rfl ⟨rfl, rfl, rfl⟩ <;> rcases hst with hst | hst <;> rw [hst]
  · decide
  · decide
  · rfl
  · rfl

theorem Move.Enabled.wellFormed {job : MemJob V} {m : Move V} (hm : m.Enabled job)
    (h : WellFormed job) : WellFormed (m.apply job) := by
  cases m with
  | replace request now =>
    have hst : job.state = .delayed := hm
    exact ⟨h.locked, h.unlocked, h.cancel, h.finished, h.exit, h.reason⟩
  | promoteNow now =>
    have hst : job.state = .delayed := hm
    exact .of_idle (by simp [Move.apply]) rfl (h.unlocked (by simp [hst]))
      (h.not_cancel (by simp [hst])) (h.clean (by rw [hst]; rfl))
  | claim options now =>
    have hst : job.state = .waiting := hm
    have hclean := h.clean (by rw [hst]; rfl)
    exact ⟨fun _ => ⟨rfl, rfl⟩, fun h => absurd rfl h, fun _ => rfl,
      by simp [Move.apply, claimJob, hclean.1, JobState.isTerminal],
      by simp [Move.apply, claimJob, hclean.2.1], by simp [Move.apply, claimJob, hclean.2.2]⟩
  | extend expiresAt =>
    have hst : job.state = .active := hm.1
    exact ⟨fun ha => ⟨(h.locked ha).1, rfl⟩, fun hn => absurd hst hn, h.cancel, h.finished, h.exit,
      h.reason⟩
  | requestCancel =>
    have hst : job.state = .active := hm
    exact ⟨h.locked, h.unlocked, fun _ => hst, h.finished, h.exit, h.reason⟩
  | requeue delayMs exit now seq =>
    have hclean := h.clean (by rw [hm.1]; rfl)
    have hst : ((Move.requeue delayMs exit now seq).apply job).state = .delayed ∨
        ((Move.requeue delayMs exit now seq).apply job).state = .waiting := by
      simp only [Move.apply]
      split <;> simp
    refine .of_idle ?_ ?_ ⟨rfl, rfl⟩ hm.2 hclean <;> rcases hst with hst | hst <;> rw [hst]
    · decide
    · decide
    · rfl
    · rfl
  | release =>
    exact .of_idle (by simp [Move.apply]) rfl ⟨rfl, rfl⟩ hm.2 (h.clean (by rw [hm.1]; rfl))
  | stall now =>
    exact .of_idle (by simp [Move.apply]) rfl ⟨rfl, rfl⟩ hm.2 (h.clean (by rw [hm.1]; rfl))
  | retry now seq =>
    have hst : job.state = .failed := hm
    exact .of_idle (by simp [Move.apply]) rfl (h.unlocked (by simp [hst])) rfl ⟨rfl, rfl, rfl⟩
  | resume now seq =>
    exact .of_idle (by simp [Move.apply]) rfl (h.unlocked (by simp [hm.1]))
      (h.not_cancel (by simp [hm.1])) (h.clean (by rw [hm.1]; rfl))

theorem Ending.Enabled.wellFormed {job : MemJob V} {e : Ending V} (he : e.Enabled job)
    (h : WellFormed job) (now : Millis) : WellFormed (endJob job now e) := by
  have hclean := h.clean he.not_terminal
  have hun : (endJob job now e).lockToken = none ∧ (endJob job now e).lockExpiresAt = none := by
    cases e with
    | failFast =>
      have hw : job.state = .waitingChildren := he
      exact h.unlocked (by simp [hw])
    | _ => exact ⟨rfl, rfl⟩
  have hcancel : (endJob job now e).cancelRequested = false := by
    cases e with
    | stalled => exact he.2
    | _ => rfl
  have hfin : (endJob job now e).finishedAt = some now := by cases e <;> rfl
  have hexit : (endJob job now e).exit.isSome → e.outcome ≠ .cancelled := by
    cases e <;> simp [endJob, recordAttempt, clearLock, hclean.2.1, Ending.outcome]
  have hreason : (endJob job now e).failedReason.isSome → e.outcome = .failed := by
    cases e <;> simp [endJob, recordAttempt, clearLock, hclean.2.2, Ending.outcome]
  constructor
  · intro ha
    rw [endJob_state] at ha
    cases ho : e.outcome <;> rw [ho] at ha <;> cases ha
  · exact fun _ => hun
  · intro hc
    rw [hcancel] at hc
    cases hc
  · rw [endJob_state, isTerminal_toJobState, hfin]
    simp
  · intro hx
    have hne := hexit hx
    rw [endJob_state]
    cases ho : e.outcome <;> simp_all [TerminalState.toJobState]
  · intro hx
    rw [endJob_state, hreason hx]
    rfl

theorem WellFormed.with_flow {job : MemJob V} (h : WellFormed job) (flow : Option FlowState) :
    WellFormed { job with flow := flow } :=
  ⟨h.locked, h.unlocked, h.cancel, h.finished, h.exit, h.reason⟩

theorem wellFormed_parkJob {job : MemJob V} (h : WellFormed job) (ha : job.state = .active)
    (now : Millis) (flow : FlowState) : WellFormed (parkJob job now flow) :=
  .of_idle (by simp [parkJob]) rfl ⟨rfl, rfl⟩ rfl (h.clean (by rw [ha]; rfl))

def View.WellFormed (v : View V) : Prop :=
  ∀ job, v.job = some job → Memory.WellFormed job

theorem View.WellFormed.step {id : JobId} {l : Label V} {v v' : View V} (h : ViewStep id l v v')
    (hv : v.WellFormed) : v'.WellFormed := by
  intro job' hj
  cases h with
  | same => exact hv job' hj
  | insert request now seq =>
    cases hj
    exact wellFormed_newJob id request now seq
  | @promote job now rows? hd =>
    have h := hv job rfl
    cases hj
    exact .of_idle (by simp) rfl (h.unlocked (by simp [hd])) (h.not_cancel (by simp [hd]))
      (h.clean (by rw [hd]; rfl))
  | @move job m rows? hm =>
    have h := hv job rfl
    cases hj
    exact hm.wellFormed h
  | @finish job e now rows? he =>
    have h := hv job rfl
    cases hj
    exact he.wellFormed h now
  | @settle job e now rows? he =>
    have h := hv job rfl
    cases hj
    have he' : e.Enabled { job with
        flow := job.flow.map fun flow => settledFlow flow (pendingRows rows?) } := by
      cases e <;> exact he
    exact he'.wellFormed (h.with_flow _) now
  | @fanOut job failFast children now rows? ha | @refan job flow failFast children now rows? ha =>
    have h := hv job rfl
    cases hj
    exact wellFormed_parkJob h ha now _
  | @report rows row job? report =>
    obtain ⟨parent, hp, rfl⟩ := Option.map_eq_some_iff.mp hj
    exact (hv parent hp).with_flow _
  | remove | prune => cases hj
  | rearm | cascade => exact hv job' hj

/-! ## Lock tokens come from claims -/

/-- A lock outlives a step under the same token and in the same flow phase, or the step is its
claim. -/
theorem ViewStep.lockToken {id : JobId} {l : Label V} {v v' : View V} (h : ViewStep id l v v')
    {job' : MemJob V} {token : String} (hj : v'.job = some job')
    (ht : job'.lockToken = some token) :
    (∃ job, v.job = some job ∧ job.lockToken = some token ∧
      job.flow.isSome = job'.flow.isSome) ∨
      ∃ options now, l = .move id (.claim options now) ∧ options.token = token := by
  cases h with
  | same | rearm | cascade => exact .inl ⟨job', hj, ht, rfl⟩
  | insert =>
    cases hj
    cases ht
  | promote =>
    cases hj
    exact .inl ⟨_, rfl, ht, rfl⟩
  | @move job m =>
    cases hj
    cases m with
    | claim options now => exact .inr ⟨options, now, rfl, Option.some.inj ht⟩
    | requeue | release | stall => cases ht
    | replace | promoteNow | extend | requestCancel | retry | resume =>
      exact .inl ⟨job, rfl, ht, rfl⟩
  | @finish job e =>
    cases hj
    cases e with
    | failFast => exact .inl ⟨job, rfl, ht, rfl⟩
    | _ => cases ht
  | @settle job e =>
    cases hj
    cases e with
    | failFast =>
      refine .inl ⟨job, rfl, ht, ?_⟩
      rw [endJob_flow, Option.isSome_map]
    | _ => cases ht
  | fanOut | refan =>
    cases hj
    cases ht
  | report =>
    obtain ⟨job, hj', rfl⟩ := Option.map_eq_some_iff.mp hj
    exact .inl ⟨job, hj', ht, Option.isSome_map.symm⟩
  | remove | prune => cases hj

/-- A lock that an operation leaves was there before, or the operation is its claim. -/
theorem exec_lockToken {s : Store V} (hk : s.toCore.Keyed) (now : Millis) (op : Op V) {id : JobId}
    {token : String} {job' : MemJob V} (hj : (exec s now op).jobs.get? id = some job')
    (ht : job'.lockToken = some token) :
    (∃ job, s.jobs.get? id = some job ∧ job.lockToken = some token ∧
      job.flow.isSome = job'.flow.isSome) ∨ ∃ options, op = .claim options ∧ options.token = token := by
  let I : View V → Prop := fun v => ∀ job', v.job = some job' → job'.lockToken = some token →
    (∃ job, s.jobs.get? id = some job ∧ job.lockToken = some token ∧
      job.flow.isSome = job'.flow.isSome) ∨ ∃ options, op = .claim options ∧ options.token = token
  have hI : I ((exec s now op).toCore.view id) := by
    refine (exec_does hk now op).view hk id (I := I) ?_ fun job hj ht => .inl ⟨job, hj, ht, rfl⟩
    intro l v v' hl hstep _ hv job' hj ht
    rcases hstep.lockToken hj ht with ⟨job, hj', ht', hflow⟩ | ⟨options, t, rfl, htok⟩
    · rw [← hflow]
      exact hv job hj' ht'
    · cases hl
      exact .inr ⟨options, rfl, htok⟩
  exact hI job' hj ht

def HoldsLock (s : Store V) (id : JobId) (token : String) : Prop :=
  ∃ job, s.jobs.get? id = some job ∧ job.lockToken = some token

theorem exec_holdsLock {s : Store V} (hk : s.toCore.Keyed) (now : Millis) (op : Op V) {id : JobId}
    {token : String} (h : HoldsLock (exec s now op) id token) :
    HoldsLock s id token ∨ ∃ options, op = .claim options ∧ options.token = token := by
  obtain ⟨job', hj, ht⟩ := h
  rcases exec_lockToken hk now op hj ht with ⟨job, hj, ht, _⟩ | hclaim
  · exact .inl ⟨job, hj, ht⟩
  · exact .inr hclaim

/-- The lock of a claim is on the job it returns. -/
theorem claim_lockToken {s : Store V} (now : Millis) (options : ClaimOptions) {id : JobId}
    {job' : MemJob V} (hj : (claim s now options).2.jobs.get? id = some job')
    (ht : job'.lockToken = some options.token) :
    HoldsLock s id options.token ∨
      (claim s now options).1 = .claimed (snapshot job') ∧ job'.id = id := by
  have hdue : ∀ {job}, (promoteDue s now).jobs.get? id = some job →
      job.lockToken = some options.token → HoldsLock s id options.token := by
    intro job hj ht
    obtain ⟨old, hold, rfl⟩ := Option.map_eq_some_iff.mp ((JsMap.get?_mapValues ..).symm.trans hj)
    refine ⟨old, hold, ?_⟩
    split at ht <;> exact ht
  unfold claim at hj ⊢
  simp only at hj ⊢
  split at hj
  · split at hj
    · exact .inl (hdue hj ht)
    · rename_i best hbest hpaused
      rw [if_neg hpaused]
      have hget := (putJob_get? _ _ id).symm.trans hj
      split at hget
      · rename_i hid
        cases hget
        exact .inr ⟨rfl, hid.symm⟩
      · exact .inl (hdue hget ht)
  · exact .inl (hdue hj ht)

/-! ## Terminal records -/

/-- What an elementary step can do to a terminal record: nothing, deletion, or a retry. -/
theorem ViewStep.terminal {id : JobId} {l : Label V} {v v' : View V} (h : ViewStep id l v v')
    (hb : Booked Covers v) {job : MemJob V} (hj : v.job = some job)
    (ht : job.state.isTerminal = true) :
    v'.job = some job ∨ (v'.job = none ∧ (l = .remove id ∨ l = .prune id)) ∨
      (job.state = .failed ∧ ∃ now seq, l = .move id (.retry now seq)) := by
  have hstate : ∀ st : JobState, job.state = st → st.isTerminal = false → False := by
    intro st hst hf
    rw [hst, hf] at ht
    cases ht
  cases h with
  | same | rearm | cascade => exact .inl hj
  | insert => cases hj
  | promote _ _ hd =>
    cases hj
    exact (hstate _ hd rfl).elim
  | @move _ m _ hm =>
    cases hj
    cases m with
    | retry now seq => exact .inr (.inr ⟨hm, now, seq, rfl⟩)
    | replace | promoteNow | claim | requestCancel => exact (hstate _ hm rfl).elim
    | extend | requeue | release | stall | resume => exact (hstate _ hm.1 rfl).elim
  | finish _ _ _ he | settle _ _ _ he =>
    cases hj
    exact (hstate _ rfl he.not_terminal).elim
  | fanOut _ _ _ _ ha | refan _ _ _ _ ha =>
    cases hj
    exact (hstate _ ha rfl).elim
  | @report rows row job? report hid hrow hp =>
    -- a settled parent has no row left that a report could apply to
    obtain ⟨_, hj', hw⟩ := hb.parked_of_pending hrow hp
    cases hj.symm.trans hj'
    exact (hstate _ hw rfl).elim
  | remove => exact .inr (.inl ⟨rfl, .inl rfl⟩)
  | prune => exact .inr (.inl ⟨rfl, .inr rfl⟩)

def Label.Inserts : Label V → Prop
  | .insert _ _ _ _ => True
  | _ => False

def Label.Deletes : Label V → Prop
  | .remove _ | .prune _ => True
  | _ => False

/-- No operation both deletes and inserts. -/
theorem Allows.not_deletes {now : Millis} {op : Op V} {l l' : Label V} (h : Allows now op l)
    (hl : l.Inserts) (h' : Allows now op l') : ¬ l'.Deletes := by
  cases h with
  | enqueue | resumeEnqueue | tick => cases h' <;> exact fun h => h
  | _ => exact hl.elim

/-- Only an insertion gives an unknown id a record. -/
theorem ViewStep.absent {id : JobId} {l : Label V} {v v' : View V} (h : ViewStep id l v v')
    (hl : ¬ l.Inserts) (hj : v.job = none) : v'.job = none := by
  cases h with
  | same | rearm | cascade => exact hj
  | insert => exact absurd trivial hl
  | report => exact Option.map_eq_none_iff.mpr hj
  | remove | prune => rfl
  | _ => cases hj

theorem ViewStep.gone {id : JobId} {l : Label V} {v v' : View V} (h : ViewStep id l v v')
    {job : MemJob V} (hj : v.job = some job) (hj' : v'.job = none) : l.Deletes := by
  cases h with
  | remove | prune => trivial
  | same | rearm | cascade => cases hj.symm.trans hj'
  | report => cases hj.symm.trans (Option.map_eq_none_iff.mp hj')
  | _ => cases hj'

/-- The invariant rule for an id that has a record: once the record is deleted, no step of the
operation inserts it again. -/
theorem exec_view_of_job {s : Store V} (hk : s.toCore.Keyed) (now : Millis) (op : Op V) {id : JobId}
    {job : MemJob V} (hj : s.jobs.get? id = some job) {I : View V → Prop}
    (hstep : ∀ l v v', Allows now op l → (v.job = none → ¬ l.Inserts) → ViewStep id l v v' →
      I v → I v')
    (hI : I (s.toCore.view id)) : I ((exec s now op).toCore.view id) := by
  let J : View V → Prop := fun v => I v ∧ (v.job = none → ∃ l, Allows now op l ∧ l.Deletes)
  have hJ : J ((exec s now op).toCore.view id) := by
    refine (exec_does hk now op).view hk id (I := J) ?_ ⟨hI, fun h => ?_⟩
    · rintro l v v' hl hview _ ⟨hv, hgone⟩
      have hins : v.job = none → ¬ l.Inserts := by
        intro hnone hins
        obtain ⟨l', hl', hdel⟩ := hgone hnone
        exact hl.not_deletes hins hl' hdel
      refine ⟨hstep l v v' hl hins hview hv, fun hnone => ?_⟩
      cases hv : v.job with
      | none => exact hgone hv
      | some j => exact ⟨l, hl, hview.gone hv hnone⟩
    · cases hj.symm.trans h
  exact hJ.1

/-- An operation other than a retry leaves a terminal record as it is or deletes it. -/
theorem exec_terminal {s : Store V} (hk : s.toCore.Keyed)
    (hb : ∀ id, Booked Covers (s.toCore.view id)) (now : Millis) (op : Op V) {id : JobId}
    {job : MemJob V} (hj : s.jobs.get? id = some job) (ht : job.state.isTerminal = true)
    (hop : job.state = .failed → op ≠ .retry id) :
    (exec s now op).jobs.get? id = some job ∨ (exec s now op).jobs.get? id = none := by
  let I : View V → Prop := fun v => Booked Covers v ∧ (v.job = some job ∨ v.job = none)
  have hI : I ((exec s now op).toCore.view id) := by
    refine exec_view_of_job hk now op hj (I := I) ?_ ⟨hb id, .inl hj⟩
    rintro l v v' hl hins hstep ⟨hb, hv⟩
    refine ⟨hb.step covers_accounts hstep (hl.fans op.fans_all), ?_⟩
    rcases hv with hv | hv
    · rcases hstep.terminal hb hv ht with h | ⟨h, _⟩ | ⟨hf, t, seq, rfl⟩
      · exact .inl h
      · exact .inr h
      · cases hl
        exact (hop hf rfl).elim
    · exact .inr (hstep.absent (hins hv) hv)
  exact hI.2

/-! ## Runs -/

structure RecordInv (s : Store V) : Prop where
  flow : FlowInv Covers s
  wellFormed : ∀ id, (s.toCore.view id).WellFormed

theorem RecordInv.exec {s : Store V} (h : RecordInv s) (now : Millis) (op : Op V) :
    RecordInv (exec s now op) where
  flow := h.flow.exec covers_accounts now op.fans_all
  wellFormed := fun id => (exec_does h.flow.keyed now op).view h.flow.keyed id
    (fun _ _ _ _ hstep _ hv => hv.step hstep) (h.wellFormed id)

theorem reachable_recordInv {s : Store V} (h : Reachable Initial Next s) : RecordInv s := by
  refine h.induct (I := RecordInv) ?_ ?_
  · rintro s rfl
    exact ⟨.empty Covers, fun _ _ h => by cases h⟩
  · rintro s event s' rfl hs
    exact hs.exec event.1 event.2

/-- Somewhere along the run the job was gone. -/
def DeletedDuring (id : JobId) (s : Store V) (es : List (Millis × Op V)) (s' : Store V) : Prop :=
  ∃ es₁ es₂ t, es = es₁ ++ es₂ ∧ Run Next s es₁ t ∧ Run Next t es₂ s' ∧ t.jobs.get? id = none

/-- In every reachable store every record is well formed, and along every run from there a terminal
record stays as it is until it is deleted; a failed one also until it is retried. -/
theorem records_wellFormed_permanent {s : Store V} (h : Reachable Initial Next s) :
    (∀ id job, s.jobs.get? id = some job → WellFormed job) ∧
    (∀ id job es s', s.jobs.get? id = some job → job.state.isTerminal = true →
      (job.state = .failed → ∀ event ∈ es, event.2 ≠ .retry id) → Run Next s es s' →
      s'.jobs.get? id = some job ∨ DeletedDuring id s es s') := by
  have hinv := reachable_recordInv h
  refine ⟨hinv.wellFormed, ?_⟩
  intro id job es s' hj ht hretry hrun
  clear h
  induction hrun with
  | refl => exact .inl hj
  | @cons s t u event es hs hr ih =>
    have hrun : Run Next t es u := hr
    obtain rfl := hs
    rcases exec_terminal hinv.flow.keyed hinv.flow.covered event.1 event.2 hj ht
      (fun hf => hretry hf event (by simp)) with hj' | hnone
    · rcases ih (hinv.exec event.1 event.2) hj' (fun hf e he => hretry hf e (by simp [he])) with
        hj'' | ⟨es₁, es₂, t, rfl, hr₁, hr₂, hnone⟩
      · exact .inl hj''
      · exact .inr ⟨event :: es₁, es₂, t, rfl, .cons rfl hr₁, hr₂, hnone⟩
    · exact .inr ⟨[event], es, _, rfl, .single rfl, hrun, hnone⟩

/-- A job that is enqueued, claimed and completed. -/
def oneCompleted : List (Millis × Op Unit) :=
  [(0, .enqueue (.plain "p" "job" "q" ()) .counter), (1, .claim ⟨"q", ["job"], "t", 30⟩),
    (2, .ack "p" "t" (.complete (some ())))]

theorem records_wellFormed_permanent_oneCompleted :
    ∃ job, (execs Store.empty oneCompleted).jobs.get? "p" = some job ∧ WellFormed job ∧
      ((execs (execs Store.empty oneCompleted) [(3, .retry "p"), (4, .cancel "p")]).jobs.get? "p" =
          some job ∨
        DeletedDuring "p" (execs Store.empty oneCompleted) [(3, .retry "p"), (4, .cancel "p")]
          (execs (execs Store.empty oneCompleted) [(3, .retry "p"), (4, .cancel "p")])) := by
  have h := records_wellFormed_permanent (reachable_next oneCompleted)
  exact ⟨_, rfl, h.1 "p" _ rfl, h.2 "p" _ _ _ rfl rfl (fun hf => by cases hf) (run_next _ _)⟩

end EffectMq.Memory
