import EffectMq.RedisJobStore.Runs

/-! # What a claim of the Redis driver serves

Over sorted sets that list exactly the jobs, `claim` promotes the due jobs of its queue and hands out
the job of the wanted names that comes first by priority and number, or answers when the next one is
due. The text order of the waiting members is the order of the numbers, as these have sixteen digits.
-/

namespace EffectMq.Redis
set_option autoImplicit false
set_option maxHeartbeats 250000

open Indexes Transition

variable {V : Type} {indexes : IndexConfig}

/-! ## Numbers -/

theorem waitingMember_lt {seq seq' : ℕ} (h : seq < seq') (hbound : seq' < 10 ^ 16) (id id' : JobId) :
    waitingMember seq id < waitingMember seq' id' := by
  have hlength : (pad16 seq).toList.length = (pad16 seq').toList.length := by
    rw [length_pad16 (h.trans hbound), length_pad16 hbound]
  have hdigits : ∀ n, ∀ c ∈ (pad16 n).toList, c.isDigit = true := fun n c => isDigit_of_mem_pad16
  have hpads : (pad16 seq).toList < (pad16 seq').toList := by
    rcases lt_trichotomy (pad16 seq).toList (pad16 seq').toList with hlt | heq | hgt
    · exact hlt
    · have hsame := congrArg (fun cs => Nat.ofDigitChars 10 cs 0) heq
      simp only [ofDigitChars_pad16] at hsame
      omega
    · have hvalues := Codes.ofDigitChars_lt_of_lex hlength.symm (hdigits seq') hgt 0
      rw [ofDigitChars_pad16, ofDigitChars_pad16] at hvalues
      omega
  rw [String.lt_iff_toList_lt, toList_waitingMember, toList_waitingMember]
  exact Codes.append_lt_append hlength hpads _ _

/-- No two jobs have one number. -/
def Keyspace.Numbered (ks : Keyspace V) : Prop :=
  ∀ id id' job job', ks.jobs.get? id = some job → ks.jobs.get? id' = some job' → job.seq = job'.seq →
    id = id'

/-- One hash is written under a number of its own. -/
theorem Keyspace.Numbered.write {ks ks' : Keyspace V} {id : JobId} (h : ks.Numbered)
    (hothers : ∀ id', id' ≠ id → ks'.jobs.get? id' = ks.jobs.get? id')
    (hown : ∀ job', ks'.jobs.get? id = some job' →
      ∀ id' other, id' ≠ id → ks.jobs.get? id' = some other → job'.seq ≠ other.seq) : ks'.Numbered := by
  intro a b job job' ha hb hseq
  by_contra hne
  by_cases haid : a = id
  · subst haid
    have hother : b ≠ a := fun heq => hne heq.symm
    exact hown job ha b job' hother ((hothers b hother).symm.trans hb) hseq
  · have ha' := (hothers a haid).symm.trans ha
    by_cases hbid : b = id
    · subst hbid
      exact hown job' hb a job haid ha' hseq.symm
    · exact hne (h a b job job' ha' ((hothers b hbid).symm.trans hb) hseq)

theorem Step.numbered {ks ks' : Keyspace V} {l : Label V} (hs : Step indexes ks l ks')
    (hks : Consistent indexes ks) (h : ks.Numbered) : ks'.Numbered := by
  cases hs with
  | quiet hq _ =>
    unfold Keyspace.Numbered
    rw [hq.jobs]
    exact h
  | insert request key now hnone hjob hseq hw _ =>
    refine h.write hw.others fun job' hjob' id' other _ hother => ?_
    obtain rfl := Option.some.inj (hjob.symm.trans hjob')
    have hbelow := (hks.sound id' other hother).seq
    exact (hbelow.trans_lt hseq).ne'
  | change c hjob hc hm =>
    rename_i id job
    refine h.write (fun id' hid => by rw [hm.jobs, if_neg hid]) fun job' hjob' id' other hid hother => ?_
    rw [hm.jobs, if_pos rfl] at hjob'
    obtain rfl := Option.some.inj hjob'
    rcases hm.number with hkept | ⟨hnew, -⟩
    · rw [hkept]
      exact fun hsame => hid (h id' id other job hother hjob hsame.symm)
    · have hbelow := (hks.sound id' other hother).seq
      omega
  | remove _ _ hnone hw _ | prune _ _ hnone hw _ =>
    refine h.write hw.others fun job' hjob' => ?_
    rw [hnone] at hjob'
    cases hjob'

theorem Calls.numbered {ks ks' : Keyspace V} {e : Script V × ℤ} (hcall : Calls indexes ks e ks')
    (hks : Sound indexes ks) (h : ks.Numbered) : ks'.Numbered := by
  obtain ⟨script, now⟩ := e
  have hkept := (hcall.does hks).preserves (I := fun ks => Consistent indexes ks ∧ ks.Numbered)
    (fun _ _ _ _ hs hI => ⟨hs.consistent hI.1, hs.numbered hI.1 hI.2⟩) ⟨hks.consistent, h⟩
  exact hkept.2

theorem reachable_numbered {ks : Keyspace V} (h : Reachable Keyspace.Fresh (Calls indexes) ks) :
    ks.Numbered := by
  have hboth : Sound indexes ks ∧ ks.Numbered := by
    refine h.induct (I := fun ks => Sound indexes ks ∧ ks.Numbered) ?_ ?_
    · rintro ks rfl
      exact ⟨sound_empty, fun id id' job job' hjob => by cases hjob⟩
    · rintro ks e ks' hcall ⟨hks, hI⟩
      exact ⟨hcall.sound hks, hcall.numbered hks hI⟩
  exact hboth.2

/-! ## Promotion -/

/-- A job after the promotion of the due jobs of a queue. -/
def promoted (queue : QueueName) (now : ℤ) (job : JobHash V) : JobHash V :=
  if job.state = .delayed ∧ job.queue = queue ∧ job.runAt ≤ now then { job with state := .waiting }
  else job

theorem foldl_promoteOne (queue : QueueName) (ids : List JobId) (ks : Keyspace V) (id : JobId) :
    (ids.foldl (promoteOne queue) ks).jobs.get? id =
      if id ∈ ids then (ks.jobs.get? id).map fun job => { job with state := .waiting }
      else ks.jobs.get? id := by
  induction ids generalizing ks with
  | nil => simp
  | cons id' ids ih =>
    have hjobs : (promoteOne queue ks id').jobs = ks.jobs.modify id' fun job =>
        { job with state := .waiting } := rfl
    rw [List.foldl_cons, ih, hjobs, JsMap.get?_modify]
    by_cases hid : id = id'
    · subst hid
      cases ks.jobs.get? id <;> simp
    · simp [hid]

theorem promoteDue_jobs {ks : Keyspace V} (h : Consistent indexes ks) (queue : QueueName) (now : ℤ)
    (id : JobId) :
    (promoteDue ks queue now).jobs.get? id = (ks.jobs.get? id).map (promoted queue now) := by
  rw [promoteDue, foldl_promoteOne]
  cases hjob : ks.jobs.get? id with
  | none => simp
  | some job =>
    have hmem : id ∈ (ks.delayed queue).range (fun t => decide (t ≤ now)) ↔
        job.state = .delayed ∧ job.queue = queue ∧ job.runAt ≤ now := by
      rw [ZSet.mem_range]
      constructor
      · rintro ⟨s, hs, hdue⟩
        obtain ⟨job', hjob', hstate, hqueue, rfl⟩ := h.of_delayed hs
        obtain rfl := Option.some.inj (hjob.symm.trans hjob')
        exact ⟨hstate, hqueue, of_decide_eq_true hdue⟩
      · rintro ⟨hstate, hqueue, hdue⟩
        refine ⟨job.runAt, ?_, decide_eq_true hdue⟩
        exact h.score? hjob (.delayed queue) (if_pos ⟨hstate, hqueue.symm⟩)
    by_cases hdue : job.state = .delayed ∧ job.queue = queue ∧ job.runAt ≤ now
    · rw [if_pos (hmem.mpr hdue), Option.map_some, Option.map_some, promoted, if_pos hdue]
    · rw [if_neg (fun hin => hdue (hmem.mp hin)), Option.map_some, promoted, if_neg hdue]

/-! ## The law of a claim -/

/-- A claim may hand this job out. -/
def Eligible (options : ClaimOptions) (now : ℤ) (job : JobHash V) : Prop :=
  job.queue = options.queue ∧ job.name ∈ options.names ∧
    (job.state = .waiting ∨ job.state = .delayed ∧ job.runAt ≤ now)

/-- A later claim may. -/
def Upcoming (options : ClaimOptions) (now : ℤ) (job : JobHash V) : Prop :=
  job.queue = options.queue ∧ job.name ∈ options.names ∧ job.state = .delayed ∧ now < job.runAt

/-- Higher priority first, then the smaller number. -/
def Ahead (job other : JobHash V) : Prop :=
  other.priority < job.priority ∨ other.priority = job.priority ∧ job.seq < other.seq

/-- The time a claimer is told to come back at. -/
def NextDue (ks : Keyspace V) (options : ClaimOptions) (now : ℤ) (nextRunAt : Option ℤ) : Prop :=
  (nextRunAt = none ∧ ∀ id job, ks.jobs.get? id = some job → ¬ Upcoming options now job) ∨
    ∃ id job, ks.jobs.get? id = some job ∧ Upcoming options now job ∧
      nextRunAt = some (cjsonNumber job.runAt) ∧
      ∀ id' other, ks.jobs.get? id' = some other → Upcoming options now other → job.runAt ≤ other.runAt

/-- What a claim does: it promotes the due jobs, and hands out the first eligible one unless the queue
is paused. -/
structure ClaimLaw (ks : Keyspace V) (options : ClaimOptions) (now : ℤ)
    (answer : ClaimReply V × Keyspace V) : Prop where
  empty : options.queue ∈ ks.paused ∨ (∀ id job, ks.jobs.get? id = some job → ¬ Eligible options now job) →
    ∃ nextRunAt, answer.1 = .empty nextRunAt ∧ NextDue ks options now nextRunAt ∧
      ∀ id, answer.2.jobs.get? id = (ks.jobs.get? id).map (promoted options.queue now)
  claimed : options.queue ∉ ks.paused → ∀ id job, ks.jobs.get? id = some job → Eligible options now job →
    ∃ first served, ks.jobs.get? first = some served ∧ Eligible options now served ∧
      (∀ id' other, ks.jobs.get? id' = some other → Eligible options now other → id' ≠ first →
        Ahead served other) ∧
      answer.1 = .claimed (claimHash served options now) ∧
      ∀ id', answer.2.jobs.get? id' = if id' = first then some (claimHash served options now)
        else (ks.jobs.get? id').map (promoted options.queue now)

section Law

variable {ks : Keyspace V} {options : ClaimOptions} {now : ℤ} {job : JobHash V}

theorem promoted_eligible (h : job.queue = options.queue ∧ job.name ∈ options.names) :
    (promoted options.queue now job).state = .waiting ↔ Eligible options now job := by
  obtain ⟨hqueue, hname⟩ := h
  unfold promoted Eligible
  by_cases hdue : job.state = .delayed ∧ job.queue = options.queue ∧ job.runAt ≤ now
  · rw [if_pos hdue]
    simp [hdue.1, hqueue, hname, hdue.2.2]
  · rw [if_neg hdue]
    constructor
    · exact fun hstate => ⟨hqueue, hname, .inl hstate⟩
    · rintro ⟨-, -, hstate | ⟨hstate, hrunAt⟩⟩
      · exact hstate
      · exact absurd ⟨hstate, hqueue, hrunAt⟩ hdue

theorem promoted_upcoming (h : job.queue = options.queue ∧ job.name ∈ options.names) :
    (promoted options.queue now job).state = .delayed ↔ Upcoming options now job := by
  obtain ⟨hqueue, hname⟩ := h
  unfold promoted Upcoming
  by_cases hdue : job.state = .delayed ∧ job.queue = options.queue ∧ job.runAt ≤ now
  · rw [if_pos hdue]
    simp [hdue.2.2]
  · rw [if_neg hdue]
    constructor
    · intro hstate
      refine ⟨hqueue, hname, hstate, ?_⟩
      by_contra hle
      exact hdue ⟨hstate, hqueue, not_lt.mp hle⟩
    · exact fun hup => hup.2.2.1

/-- A promotion leaves what a claim is served by. -/
theorem promoted_keeps (queue : QueueName) (now : ℤ) (job : JobHash V) :
    (promoted queue now job).queue = job.queue ∧ (promoted queue now job).name = job.name ∧
      (promoted queue now job).priority = job.priority ∧ (promoted queue now job).seq = job.seq ∧
      (promoted queue now job).runAt = job.runAt := by
  unfold promoted
  split <;> exact ⟨rfl, rfl, rfl, rfl, rfl⟩

theorem claimHash_promoted (queue : QueueName) (job : JobHash V) :
    claimHash (promoted queue now job) options now = claimHash job options now := by
  unfold promoted
  split <;> rfl

theorem paused_promoteDue (ks : Keyspace V) (queue : QueueName) (now : ℤ) :
    (promoteDue ks queue now).paused = ks.paused := by
  unfold promoteDue
  generalize (ks.delayed queue).range _ = ids
  induction ids generalizing ks with
  | nil => rfl
  | cons id ids ih => exact ih (promoteOne queue ks id)

section After

variable {ks₁ : Keyspace V} (h : Consistent indexes ks₁)
  (hjobs : ∀ id, ks₁.jobs.get? id = (ks.jobs.get? id).map (promoted options.queue now))

include hjobs

theorem wanted_promoted {id : JobId} (hjob : ks.jobs.get? id = some job) :
    wanted ks₁ options.names id = decide (job.name ∈ options.names) := by
  rw [wanted, hjobs, hjob, Option.map_some, Option.any_some, (promoted_keeps ..).2.1]

include h

/-- An upcoming job is listed at its time. -/
theorem listed_upcoming {id : JobId} (hjob : ks.jobs.get? id = some job)
    (hup : Upcoming options now job) : (ks₁.delayed options.queue).score? id = some job.runAt := by
  have hjob₁ : ks₁.jobs.get? id = some (promoted options.queue now job) := by
    rw [hjobs, hjob, Option.map_some]
  have hstate := (promoted_upcoming ⟨hup.1, hup.2.1⟩).mpr hup
  obtain ⟨hqueue, -, -, -, hrunAt⟩ := promoted_keeps options.queue now job
  refine h.score? hjob₁ (.delayed options.queue) ?_
  rw [JobHash.listed, if_pos ⟨hstate, (hqueue.trans hup.1).symm⟩, hrunAt]

/-- An eligible job is listed under its number. -/
theorem listed_eligible {id : JobId} (hjob : ks.jobs.get? id = some job)
    (heligible : Eligible options now job) :
    (ks₁.waiting options.queue).score? (waitingMember job.seq id) = some (-job.priority) := by
  have hjob₁ : ks₁.jobs.get? id = some (promoted options.queue now job) := by
    rw [hjobs, hjob, Option.map_some]
  have hstate := (promoted_eligible ⟨heligible.1, heligible.2.1⟩).mpr heligible
  obtain ⟨hqueue, -, hpriority, hseq, -⟩ := promoted_keeps options.queue now job
  refine h.score? hjob₁ (.waiting options.queue) ?_
  rw [JobHash.listed, if_pos ⟨hstate, (hqueue.trans heligible.1).symm⟩, hseq, hpriority]

/-- The delayed jobs are asked for their time in its order. -/
theorem nextDue : NextDue ks options now ((((ks₁.delayed options.queue).withScores.find? fun member =>
    wanted ks₁ options.names member.1).map (·.2)).map cjsonNumber) := by
  cases hfind : (ks₁.delayed options.queue).withScores.find? fun member =>
      wanted ks₁ options.names member.1 with
  | none =>
    refine .inl ⟨rfl, fun id job hjob hup => ?_⟩
    have hnot := List.find?_eq_none.mp hfind (id, job.runAt)
      (ZSet.mem_withScores.mpr (listed_upcoming h hjobs hjob hup))
    rw [wanted_promoted hjobs hjob] at hnot
    exact hnot (decide_eq_true hup.2.1)
  | some member =>
    have hscore := ZSet.mem_withScores.mp (List.mem_of_find?_eq_some hfind)
    obtain ⟨job₁, hjob₁, hstate, hqueue, htime⟩ := h.of_delayed hscore
    rw [hjobs, Option.map_eq_some_iff] at hjob₁
    obtain ⟨job, hjob, rfl⟩ := hjob₁
    obtain ⟨hqueue', -, -, -, hrunAt⟩ := promoted_keeps options.queue now job
    have hname : job.name ∈ options.names := by
      have hpass := List.find?_some hfind
      rw [wanted_promoted hjobs hjob] at hpass
      exact of_decide_eq_true hpass
    have hup := (promoted_upcoming ⟨hqueue'.symm.trans hqueue, hname⟩).mp hstate
    refine .inr ⟨member.1, job, hjob, hup, ?_, fun id' other hother hup' => ?_⟩
    · rw [Option.map_some, Option.map_some, htime, hrunAt]
    · have hmembers : (ks₁.delayed options.queue).members.find? (wanted ks₁ options.names) =
          some member.1 := by
        rw [← ZSet.map_fst_withScores, List.find?_map]
        exact congrArg (Option.map Prod.fst) hfind
      have hle := ZSet.find?_members_le hmembers hscore (listed_upcoming h hjobs hother hup')
        (by rw [wanted_promoted hjobs hother]; exact decide_eq_true hup'.2.1)
      rw [htime, hrunAt] at hle
      omega

/-- A waiting member of a wanted name is an eligible job. -/
theorem eligible_of_member (hseq : ks₁.seq < 10 ^ 16) {member : String} {s : ℤ}
    (hs : (ks₁.waiting options.queue).score? member = some s)
    (hwanted : wanted ks₁ options.names (waitingId member) = true) :
    ∃ id job, ks.jobs.get? id = some job ∧ Eligible options now job ∧
      member = waitingMember job.seq id ∧ waitingId member = id ∧ s = -job.priority := by
  obtain ⟨id, job₁, hjob₁, hwaiting, hqueue, rfl, rfl⟩ := h.of_waiting hs
  have hid : waitingId (waitingMember job₁.seq id) = id :=
    waitingId_waitingMember ((h.sound id job₁ hjob₁).seq.trans_lt hseq) id
  rw [hjobs, Option.map_eq_some_iff] at hjob₁
  obtain ⟨job, hjob, rfl⟩ := hjob₁
  obtain ⟨hqueue', -, hpriority, hseq', -⟩ := promoted_keeps options.queue now job
  rw [hid, wanted_promoted hjobs hjob] at hwanted
  refine ⟨id, job, hjob, ?_, by rw [hseq'], hid, by rw [hpriority]⟩
  exact (promoted_eligible ⟨hqueue'.symm.trans hqueue, of_decide_eq_true hwanted⟩).mp hwaiting

end After

theorem claim_law (h : Sound indexes ks) (hnumbered : ks.Numbered) (options : ClaimOptions) (now : ℤ) :
    ClaimLaw ks options now (claim ks options now) := by
  have hc : Consistent indexes (promoteDue ks options.queue now) :=
    (promoteDue_does now h.consistent options).consistent h.consistent
  have hseq : (promoteDue ks options.queue now).seq < 10 ^ 16 := by
    rw [seq_promoteDue]
    exact h.seq
  have hjobs := promoteDue_jobs h.consistent options.queue now
  have hpaused := paused_promoteDue ks options.queue now
  have hnext := nextDue hc hjobs
  unfold claim
  dsimp only
  generalize promoteDue ks options.queue now = ks₁ at *
  by_cases hpause : options.queue ∈ ks₁.paused
  · rw [if_pos hpause]
    exact ⟨fun _ => ⟨_, rfl, hnext, hjobs⟩, fun hnot => absurd (hpaused ▸ hpause) hnot⟩
  · rw [if_neg hpause]
    cases hfind : (ks₁.waiting options.queue).members.find? fun member =>
        wanted ks₁ options.names (waitingId member) with
    | none =>
      refine ⟨fun _ => ⟨_, rfl, hnext, hjobs⟩, fun _ id job hjob heligible => ?_⟩
      have hlisted := listed_eligible hc hjobs hjob heligible
      have hnot := List.find?_eq_none.mp hfind _ (ZSet.mem_members.mpr ⟨_, hlisted⟩)
      have hid : waitingId (waitingMember job.seq id) = id :=
        waitingId_waitingMember ((h.consistent.sound id job hjob).seq.trans_lt h.seq) id
      rw [hid, wanted_promoted hjobs hjob] at hnot
      exact absurd (decide_eq_true heligible.2.1) hnot
    | some member =>
      obtain ⟨s, hs⟩ := ZSet.mem_members.mp (List.mem_of_find?_eq_some hfind)
      have hpass : wanted ks₁ options.names (waitingId member) = true :=
        List.find?_some (p := fun member => wanted ks₁ options.names (waitingId member)) hfind
      obtain ⟨first, served, hserved, heligible, rfl, hid, rfl⟩ :=
        eligible_of_member hc hjobs hseq hs hpass
      have hserved₁ : ks₁.jobs.get? first = some (promoted options.queue now served) := by
        rw [hjobs, hserved, Option.map_some]
      dsimp only
      rw [hid, hserved₁]
      refine ⟨fun hempty => ?_, fun _ _ _ _ _ => ⟨first, served, hserved, heligible, ?_, ?_, ?_⟩⟩
      · rcases hempty with hp | hnone
        · exact absurd (hpaused ▸ hp) hpause
        · exact absurd heligible (hnone first served hserved)
      · intro id' other hother heligible' hne
        have hid' : waitingId (waitingMember other.seq id') = id' :=
          waitingId_waitingMember ((h.consistent.sound id' other hother).seq.trans_lt h.seq) id'
        have hle := ZSet.find?_members_le hfind hs (listed_eligible hc hjobs hother heligible')
          (by rw [hid', wanted_promoted hjobs hother]; exact decide_eq_true heligible'.2.1)
        unfold Ahead
        rcases hle with hlt | ⟨heq, hle⟩
        · exact .inl (by omega)
        · refine .inr ⟨by omega, ?_⟩
          have hdistinct : served.seq ≠ other.seq := fun hsame =>
            hne (hnumbered id' first other served hother hserved hsame.symm)
          by_contra hnot
          have hbound := (h.consistent.sound first served hserved).seq.trans_lt h.seq
          have hlt := waitingMember_lt (by omega : other.seq < served.seq) hbound id' first
          exact absurd hle (not_le.mpr hlt)
      · exact congrArg ClaimReply.claimed (claimHash_promoted options.queue served)
      · intro id'
        change (ks₁.jobs.modify first fun job => claimHash job options now).get? id' = _
        rw [JsMap.get?_modify, hserved₁, hjobs, Option.map_some, claimHash_promoted]

end Law

/-- In every run a claim follows the law. -/
theorem reachable_claim_law {ks : Keyspace V} (h : Reachable Keyspace.Fresh (Calls indexes) ks)
    (options : ClaimOptions) (now : ℤ) : ClaimLaw ks options now (claim ks options now) :=
  claim_law (reachable_sound h) (reachable_numbered h) options now

theorem mailRun_claim_law :
    ClaimLaw (Keyspace.empty.runs ⟨true, true⟩ mailRun) ⟨"default", ["mail"], "t2", 1000⟩ 5
      (claim (Keyspace.empty.runs ⟨true, true⟩ mailRun) ⟨"default", ["mail"], "t2", 1000⟩ 5) :=
  reachable_claim_law reachable_mailRun _ _

end EffectMq.Redis
