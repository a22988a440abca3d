import EffectMq.RedisJobStore.DedupeSweep
import EffectMq.RedisJobStore.Lifecycle

/-! # Moving a job hash in the Redis driver

The helpers of the scripts as elementary steps: what leaves the hashes alone, an insert, a deletion with
all that lists the job, retention, and the transitions of one hash. A transition takes the job out of
the sets it is listed in (`Taken`) and puts it back where its new state belongs.
-/

namespace EffectMq.Redis
set_option autoImplicit false
set_option maxHeartbeats 250000

open Indexes Transition

variable {V : Type} {indexes : IndexConfig}

/-! ## What leaves the hashes alone -/

/-- The hashes with all that is kept about them. -/
def Keyspace.body (ks : Keyspace V) :
    JsMap JobId (JobHash V) × (JobId → List (AttemptRecord V)) × (IndexKey → ZSet ℤ String) ×
      (QueueName → JobState → ℤ) × ℕ :=
  (ks.jobs, ks.attempts, ks.index, ks.counts, ks.seq)

/-- What is neither the body nor a schedule nor an index of the sweeps. -/
def Keyspace.beside (ks : Keyspace V) :
    JsMap (JobId × String) (RowHash V) × (JobId → ZSet ℤ String) × JsMap String DedupeHash ×
      List QueueName × List (OutboxEntry V) × ℕ :=
  (ks.flowRows, ks.flowIndex, ks.dedupes, ks.paused, ks.outbox, ks.outboxSeq)

section Quiet

variable {P : Label V → Prop} {ks ks' : Keyspace V}

theorem Does.quiet (hP : P .quiet) (hq : Quiet ks ks') (ha : ks'.attempts = ks.attempts) :
    Does indexes P ks ks' :=
  .single (.quiet hq ha) hP

theorem Does.of_body (hP : P .quiet) (h : ks'.body = ks.body) : Does indexes P ks ks' := by
  simp only [Keyspace.body, Prod.mk.injEq] at h
  obtain ⟨hjobs, hattempts, hindex, hcounts, hseq⟩ := h
  exact .quiet hP ⟨hjobs, hindex, hcounts, hseq.ge⟩ hattempts

theorem body_foldl {α : Type} {f : Keyspace V → α → Keyspace V} (h : ∀ ks a, (f ks a).body = ks.body)
    (as : List α) (ks : Keyspace V) : (as.foldl f ks).body = ks.body := by
  induction as generalizing ks with
  | nil => rfl
  | cons a as ih => exact (ih (f ks a)).trans (h ks a)

theorem body_foldl_snd {α β : Type} {f : β × Keyspace V → α → β × Keyspace V}
    (h : ∀ acc a, (f acc a).2.body = acc.2.body) (as : List α) (acc : β × Keyspace V) :
    (as.foldl f acc).2.body = acc.2.body := by
  induction as generalizing acc with
  | nil => rfl
  | cons a as ih => exact (ih (f acc a)).trans (h acc a)

theorem body_foldl_fst {α β : Type} {f : Keyspace V × β → α → Keyspace V × β}
    (h : ∀ acc a, (f acc a).1.body = acc.1.body) (as : List α) (acc : Keyspace V × β) :
    (as.foldl f acc).1.body = acc.1.body := by
  induction as generalizing acc with
  | nil => rfl
  | cons a as ih => exact (ih (f acc a)).trans (h acc a)

theorem body_appendOutbox (ks : Keyspace V) (id : JobId) (outcome : TerminalState) :
    (appendOutbox ks id outcome).body = ks.body := by
  unfold appendOutbox
  split
  · rfl
  · split <;> rfl

theorem body_releaseDedupe (ks : Keyspace V) (name dedupeKey : String) (id : JobId) (now : ℤ) :
    (releaseDedupe ks name dedupeKey id now).body = ks.body := by
  unfold releaseDedupe
  split
  · rfl
  · dsimp only
    split
    · rfl
    · split <;> rfl

theorem body_setWindow (ks : Keyspace V) (key : String) (now : ℤ) (ttlMs : Option (WithTop ℤ)) :
    (setWindow ks key now ttlMs).body = ks.body := by
  cases ttlMs <;> rfl

theorem body_dropRows (ks : Keyspace V) (flowId : JobId) : (dropRows ks flowId).body = ks.body := by
  obtain ⟨rows, pending, cascade, hdrop, -⟩ := dropRows_spec ks flowId
  rw [hdrop]
  rfl

theorem body_stageRows (ks : Keyspace V) (id : JobId) (chunk : FanOutChunk V) (now : ℤ) :
    (stageRows ks id chunk now).body = ks.body := by
  unfold stageRows
  dsimp only
  refine (body_foldl (fun ks item => ?_) _ _).trans ?_
  · rfl
  · split
    · exact body_dropRows ks id
    · rfl

theorem body_markPendingRowsCancelled (ks : Keyspace V) (flowId : JobId) :
    (markPendingRowsCancelled ks flowId).1.body = ks.body := by
  apply body_foldl_fst
  intro acc key
  unfold markRowCancelled
  dsimp only
  split
  · rfl
  · split <;> rfl

theorem body_advanceSchedule (ks : Keyspace V) (key : ScheduleKey) (expectedRunAt nextRunAt : ℤ) :
    (advanceSchedule ks key expectedRunAt nextRunAt).2.body = ks.body := by
  unfold advanceSchedule
  split
  · rfl
  · split <;> rfl

theorem body_sweepPending (now : ℤ) (acc : List (JobId × String × RowHash V) × Keyspace V)
    (member : FlowMember) : (sweepPending now acc member).2.body = acc.2.body := by
  unfold sweepPending
  dsimp only
  split
  · rfl
  · split
    · rfl
    · split <;> rfl

theorem body_sweepDedupes (ks : Keyspace V) (limit : ℕ) (now : ℤ) :
    (sweepDedupes ks limit now).2.body = ks.body := by
  unfold sweepDedupes
  dsimp only
  refine (body_foldl_snd (fun acc key => ?_) _ _).trans (body_foldl (f := dropDedupe) (fun _ _ => rfl) _ _)
  unfold sweepPointer
  dsimp only
  split <;> rfl

/-- The numbers drawn for ids. -/
theorem autoId_quiet (tries : ℕ) (ks : Keyspace V) :
    Quiet ks (autoId tries ks).2 ∧ (autoId tries ks).2.attempts = ks.attempts := by
  induction tries generalizing ks with
  | zero => exact ⟨⟨rfl, rfl, rfl, le_rfl⟩, rfl⟩
  | succ tries ih =>
    have hbump : Quiet ks { ks with seq := ks.seq + 1 } := ⟨rfl, rfl, rfl, Nat.le_succ _⟩
    unfold autoId
    dsimp only
    split
    · obtain ⟨hq, ha⟩ := ih { ks with seq := ks.seq + 1 }
      exact ⟨⟨hq.jobs.trans hbump.jobs, hq.index.trans hbump.index, hq.counts.trans hbump.counts,
        hbump.seq.trans hq.seq⟩, ha⟩
    · exact ⟨hbump, rfl⟩

theorem resolveId_quiet (ks : Keyspace V) (mode : IdMode) (id : JobId) :
    Quiet ks (resolveId ks mode id).2 ∧ (resolveId ks mode id).2.attempts = ks.attempts := by
  cases mode with
  | auto => exact autoId_quiet 5 ks
  | user | generated => exact ⟨⟨rfl, rfl, rfl, le_rfl⟩, rfl⟩

/-- An id of the script's own is free. -/
theorem autoId_free (tries : ℕ) (ks : Keyspace V) {id : JobId} (h : (autoId tries ks).1 = some id) :
    (autoId tries ks).2.jobs.get? id = none := by
  induction tries generalizing ks with
  | zero => cases h
  | succ tries ih =>
    unfold autoId at h ⊢
    dsimp only at h ⊢
    split at h
    next htaken =>
      rw [if_pos htaken]
      exact ih _ h
    next hfree =>
      rw [if_neg hfree]
      obtain rfl := Option.some.inj h
      exact JsMap.has_eq_false.mp (Bool.eq_false_iff.mpr hfree)

end Quiet

/-! ## Inserting and deleting a hash -/

section Insert

variable {ks : Keyspace V} {id : JobId} (request : EnqueueRequest V) (dedupeKey : String) (now : ℤ)

theorem insertJobRow_index (key : IndexKey) :
    (insertJobRow indexes ks id request dedupeKey now).index key =
      (ks.index key).swap none
        ((jobHash id request dedupeKey now (ks.seq + 1)).listed indexes id key) := by
  have hstate : (jobHash id request dedupeKey now (ks.seq + 1)).state = .waiting ∨
      (jobHash id request dedupeKey now (ks.seq + 1)).state = .delayed := by
    simp only [jobHash]
    split
    · exact .inr rfl
    · exact .inl rfl
  unfold insertJobRow
  dsimp only
  generalize hjob : jobHash id request dedupeKey now (ks.seq + 1) = job at hstate
  have hseq : job.seq = ks.seq + 1 := by rw [← hjob]; rfl
  have henqueued : job.enqueuedAt = now := by rw [← hjob]; rfl
  rcases hstate with hstate | hstate
  · cases key <;>
      simp [Keyspace.index, addListed, addWaiting, countsAdd, JobHash.listed, hstate, hseq, henqueued,
        JobState.isTerminal]
    all_goals split_ifs <;> simp_all
  · cases key <;>
      simp [Keyspace.index, addListed, addDelayed, countsAdd, JobHash.listed, hstate, henqueued,
        JobState.isTerminal]
    all_goals split_ifs <;> simp_all

/-- A fresh row under a free id. -/
theorem insertJobRow_step (hnone : ks.jobs.get? id = none) :
    Step indexes ks (.insert id request dedupeKey now)
      (insertJobRow indexes ks id request dedupeKey now) := by
  obtain ⟨hjobs, hseq⟩ := insertJobRow_jobs indexes ks id request dedupeKey now
  have hget : ∀ id', (insertJobRow indexes ks id request dedupeKey now).jobs.get? id' =
      if id' = id then some (jobHash id request dedupeKey now (ks.seq + 1)) else ks.jobs.get? id' := by
    intro id'
    rw [hjobs, JsMap.get?_set]
  have hown := hget id
  rw [if_pos rfl] at hown
  have hcounts : (insertJobRow indexes ks id request dedupeKey now).counts =
      (countsAdd ks request.queue (jobHash id request dedupeKey now (ks.seq + 1)).state 1).counts := by
    unfold insertJobRow
    dsimp only
    split <;> rfl
  have hattempts : (insertJobRow indexes ks id request dedupeKey now).attempts = ks.attempts := by
    unfold insertJobRow
    dsimp only
    split <;> rfl
  refine .insert request dedupeKey now hnone (by rw [hown, hseq]) (by rw [hseq]; exact Nat.lt_succ_self _)
    ⟨fun id' hne => ?_, fun key => ?_, fun q st => ?_, ?_, fun job hjob => ?_⟩ hattempts
  · rw [hget, if_neg hne]
  · rw [hnone, hown, insertJobRow_index]
    rfl
  · rw [hnone, hown, hcounts, weight_some]
    simp only [countsAdd, upd_apply]
    have hqueue : (jobHash id request dedupeKey now (ks.seq + 1)).queue = request.queue := rfl
    rw [hqueue]
    by_cases hq : q = request.queue
    · subst hq
      by_cases hst : st = (jobHash id request dedupeKey now (ks.seq + 1)).state
      · simp [hst, JsMap.weight]
      · simp [hst, Ne.symm hst, JsMap.weight]
    · simp [hq, Ne.symm hq, JsMap.weight]
  · rw [hseq]
    exact Nat.le_succ _
  · rw [hown] at hjob
    obtain rfl := Option.some.inj hjob
    refine ⟨rfl, ⟨fun hs => ?_, fun hs => ?_⟩, hseq.ge⟩
    · simp only [jobHash] at hs
      split at hs <;> cases hs
    · simp only [jobHash] at hs
      split at hs <;> cases hs

end Insert

section Delete

variable {ks : Keyspace V} {id : JobId} {job : JobHash V}

/-- Taking a job out of a sorted set, whether it is listed there or not. -/
theorem Consistent.rem_member (h : Consistent indexes ks) (hjob : ks.jobs.get? id = some job)
    (key : IndexKey) :
    (ks.index key).rem (memberOf id job.seq key) =
      (ks.index key).swap (job.listed indexes id key) none := by
  cases hlisted : job.listed indexes id key with
  | some e =>
    rw [ZSet.swap_some_none, JobHash.listed_member hlisted]
  | none =>
    rw [ZSet.swap_none_none]
    apply h.lists.rem_absent (k := id)
    · intro id' job' s hs
      exact memberOf_inj (JobHash.listed_member hs).symm
    · rw [hjob, entryOf_some, hlisted]

theorem deleteJob_writes (h : Consistent indexes ks) (hjob : ks.jobs.get? id = some job) :
    Writes indexes ks (deleteJob ks id) id ∧ (deleteJob ks id).jobs.get? id = none ∧
      (deleteJob ks id).attempts = upd ks.attempts id [] := by
  obtain ⟨rows, pending, cascade, hdelete, -⟩ := deleteJob_eq hjob
  have hnone : (deleteJob ks id).jobs.get? id = none := by
    rw [deleteJob_jobs, if_pos rfl]
  refine ⟨⟨fun id' hne => ?_, fun key => ?_, fun q st => ?_, ?_, fun job' hjob' => ?_⟩, hnone, ?_⟩
  · rw [deleteJob_jobs, if_neg hne]
  · rw [hjob, hnone, entryOf_some, entryOf_none, ← h.rem_member hjob, hdelete]
    have habsent : job.listed indexes id key = none → (ks.index key).rem (memberOf id job.seq key) =
        ks.index key := fun hnot => by rw [h.rem_member hjob, hnot, ZSet.swap_none_none]
    cases key <;> simp only [Keyspace.index, unlisted, upd_apply, memberOf] at habsent ⊢
    case terminal name state =>
      by_cases hname : name = job.name
      · by_cases hstate : state = job.state <;> simp_all [JobHash.listed]
      · simp_all [JobHash.listed]
    all_goals split_ifs <;> simp_all [JobHash.listed]
  · rw [hjob, hnone, hdelete, weight_some]
    simp only [unlisted, upd_apply]
    by_cases hq : q = job.queue
    · subst hq
      by_cases hst : st = job.state
      · simp [hst, JsMap.weight]
      · simp [hst, Ne.symm hst, JsMap.weight]
    · simp [hq, Ne.symm hq, JsMap.weight]
  · rw [hdelete]
    exact le_rfl
  · rw [hnone] at hjob'
    cases hjob'
  · rw [hdelete]

theorem deleteJob_prune (h : Consistent indexes ks) (hjob : ks.jobs.get? id = some job)
    (hterminal : job.state.isTerminal = true) : Step indexes ks (.prune id) (deleteJob ks id) := by
  obtain ⟨hw, hnone, ha⟩ := deleteJob_writes h hjob
  exact .prune hjob hterminal hnone hw ha

end Delete

/-! ## Retention -/

section Retention

variable {P : Label V → Prop} {ks : Keyspace V}

/-- A member of a terminal set is a job of that name and state. -/
theorem Consistent.of_terminal (h : Consistent indexes ks) {name : String} {state : JobState}
    {id : JobId} (hid : id ∈ (ks.terminal name state).members) :
    ∃ job, ks.jobs.get? id = some job ∧ job.name = name ∧ job.state = state ∧
      state.isTerminal = true := by
  obtain ⟨s, hs⟩ := ZSet.mem_members.mp hid
  obtain ⟨id', hid'⟩ := (h.lists (.terminal name state) id s).mp hs
  obtain ⟨job, hjob, hlisted⟩ := Option.bind_eq_some_iff.mp hid'
  obtain rfl : id = id' := JobHash.listed_member hlisted
  simp only [JobHash.listed] at hlisted
  split at hlisted
  next hcond =>
    obtain ⟨hname, hstate, hterminal⟩ := hcond
    exact ⟨job, hjob, hname.symm, hstate.symm, hstate ▸ hterminal⟩
  next => cases hlisted

theorem deleteUnowed_does (hP : ∀ id, P (.prune id)) (h : Consistent indexes ks) {ids : List JobId}
    (hterminal : ∀ id ∈ ids, ∀ job, ks.jobs.get? id = some job → job.state.isTerminal = true) :
    Does indexes P ks (deleteUnowed ks ids) := by
  induction ids generalizing ks with
  | nil => exact .refl P ks
  | cons id ids ih =>
    rw [deleteUnowed_cons]
    split
    · exact ih h fun id' hid' => hterminal id' (List.mem_cons_of_mem _ hid')
    · have hfirst : Does indexes P ks (deleteJob ks id) := by
        cases hjob : ks.jobs.get? id with
        | none =>
          rw [deleteJob_of_none hjob]
          exact .refl P ks
        | some job =>
          exact .single (deleteJob_prune h hjob (hterminal id List.mem_cons_self job hjob)) (hP id)
      refine hfirst.trans (ih (hfirst.consistent h) fun id' hid' job hjob => ?_)
      rw [deleteJob_jobs] at hjob
      split at hjob
      · cases hjob
      · exact hterminal id' (List.mem_cons_of_mem _ hid') job hjob

theorem dropAged_does (hP : ∀ id, P (.prune id)) (h : Consistent indexes ks) (name : String)
    (state : JobState) (cutoff : ℚ) : Does indexes P ks (dropAged ks name state cutoff) := by
  apply deleteUnowed_does hP h
  intro id hid job hjob
  obtain ⟨s, hs, -⟩ := ZSet.mem_range.mp hid
  obtain ⟨job', hjob', -, hstate, hterminal⟩ := h.of_terminal (ZSet.mem_members.mpr ⟨s, hs⟩)
  obtain rfl := Option.some.inj (hjob.symm.trans hjob')
  rw [hstate]
  exact hterminal

theorem dropBeyond_does (hP : ∀ id, P (.prune id)) (h : Consistent indexes ks) (name : String)
    (state : JobState) (count : ℕ) : Does indexes P ks (dropBeyond ks name state count) := by
  apply deleteUnowed_does hP h
  intro id hid job hjob
  obtain ⟨entry, hentry, rfl⟩ := List.mem_map.mp hid
  have hmem := (List.mem_insertionSort _).mp (List.mem_of_mem_drop hentry)
  obtain ⟨member, hmember, rfl⟩ := List.mem_map.mp hmem
  have hscore := ZSet.mem_withScores.mp hmember
  obtain ⟨job', hjob', -, hstate, hterminal⟩ := h.of_terminal (ZSet.mem_members.mpr ⟨_, hscore⟩)
  obtain rfl := Option.some.inj (hjob.symm.trans hjob')
  rw [hstate]
  exact hterminal

theorem applyKeep_does (hP : ∀ id, P (.prune id)) (h : Consistent indexes ks) (name : String)
    (state : TerminalState) (keep : Option KeepPolicy) (now : ℤ) :
    Ends (Does indexes P ks) id (applyKeep ks name state keep now) := by
  unfold applyKeep
  split
  · exact .refl P ks
  · rename_i policy _
    have hage : Ends (Does indexes P ks) id (applyAge ks name state.toJobState policy now) := by
      unfold applyAge
      split
      · exact .refl P ks
      · split
        · exact .refl P ks
        · exact dropAged_does hP h name state.toJobState _
    cases hresult : applyAge ks name state.toJobState policy now with
    | error ks' =>
      rw [hresult] at hage
      exact hage
    | ok ks' =>
      rw [hresult] at hage
      have haged : Does indexes P ks ks' := hage
      refine haged.trans ?_
      unfold id applyCount
      split
      · exact .refl P ks'
      · exact dropBeyond_does hP (haged.consistent h) name state.toJobState _

theorem Ends.after {β : Type} {left : β → Keyspace V} {ks₁ : Keyspace V}
    {r : Except (Keyspace V) β} (h : Does indexes P ks ks₁) (hr : Ends (Does indexes P ks₁) left r) :
    Ends (Does indexes P ks) left r := by
  cases r with
  | ok b => exact h.trans hr
  | error ks₂ => exact h.trans hr

/-- What may follow a transition. -/
def Label.Trims : Label V → Prop
  | .quiet | .prune _ => True
  | _ => False

theorem Does.of_trims {ks' : Keyspace V} (hquiet : P .quiet) (hprune : ∀ id, P (.prune id))
    (h : Does indexes Label.Trims ks ks') : Does indexes P ks ks' := by
  refine h.mono fun l hl => ?_
  cases l with
  | quiet => exact hquiet
  | prune id => exact hprune id
  | _ => exact hl.elim

/-- After the ledger entry: the report, the dedup key and the retention. -/
def wrapUp (ks : Keyspace V) (id : JobId) (name : String) (state : TerminalState) (now : ℤ) :
    Except (Keyspace V) (Keyspace V) :=
  let ks := appendOutbox ks id state
  let job := ks.jobs.get? id
  applyKeep (releaseDedupe ks name ((job.map (·.dedupeKey)).getD "") id now) name state
    (job.bind (·.keep)) now

theorem wrapUp_trims (jobId : JobId) (name : String) (state : TerminalState) (now : ℤ)
    (h : Consistent indexes ks) :
    Ends (Does indexes Label.Trims ks) id (wrapUp ks jobId name state now) := by
  have hposted : ∀ key, Does indexes Label.Trims ks
      (releaseDedupe (appendOutbox ks jobId state) name key jobId now) := by
    intro key
    refine .of_body trivial ?_
    rw [body_releaseDedupe, body_appendOutbox]
  exact .after (hposted _) (applyKeep_does (fun _ => trivial) ((hposted _).consistent h) name state _ now)

end Retention

/-! ## Transitions -/

section Index

variable (ks : Keyspace V) (id : JobId) (key : IndexKey)

@[simp] theorem index_hset (f : JobHash V → JobHash V) : (hset ks id f).index key = ks.index key := by
  cases key <;> rfl

@[simp] theorem index_seq (n : ℕ) : ({ ks with seq := n } : Keyspace V).index key = ks.index key := by
  cases key <;> rfl

@[simp] theorem index_countsMove (queue : QueueName) (state state' : JobState) :
    (countsMove ks queue state state').index key = ks.index key := by
  cases key <;> rfl

@[simp] theorem index_appendAttempt (outcome : AttemptOutcome) (startedAt : Option ℤ) (now : ℤ)
    (exit : Option V) : (appendAttempt ks id outcome startedAt now exit).index key = ks.index key := by
  cases key <;> rfl

@[simp] theorem index_addWaiting (queue : QueueName) (priority : ℤ) (seq : ℕ) :
    (addWaiting ks queue priority seq id).index key =
      if key = .waiting queue then (ks.index key).add (waitingMember seq id) (-priority)
      else ks.index key := by
  cases key <;> simp [Keyspace.index, addWaiting]
  split_ifs <;> simp_all

@[simp] theorem index_addDelayed (queue : QueueName) (runAt : ℤ) :
    (addDelayed ks queue runAt id).index key =
      if key = .delayed queue then (ks.index key).add id runAt else ks.index key := by
  cases key <;> simp [Keyspace.index, addDelayed]
  split_ifs <;> simp_all

@[simp] theorem index_remDelayed (queue : QueueName) :
    (remDelayed ks queue id).index key =
      if key = .delayed queue then (ks.index key).rem id else ks.index key := by
  cases key <;> simp [Keyspace.index, remDelayed]
  split_ifs <;> simp_all

theorem index_remWaiting {job : JobHash V} (h : ks.jobs.get? id = some job) (queue : QueueName) :
    (remWaiting ks queue id).index key =
      if key = .waiting queue then (ks.index key).rem (waitingMember job.seq id)
      else ks.index key := by
  cases key <;> simp [Keyspace.index, remWaiting, h]
  split_ifs <;> simp_all

@[simp] theorem index_addActive (expiresAt : ℤ) :
    (addActive ks expiresAt id).index key =
      if key = .active then (ks.index key).add id expiresAt else ks.index key := by
  cases key <;> simp [Keyspace.index, addActive]

@[simp] theorem index_remActive :
    (remActive ks id).index key = if key = .active then (ks.index key).rem id else ks.index key := by
  cases key <;> simp [Keyspace.index, remActive]

@[simp] theorem index_addTerminal (name : String) (state : JobState) (now : ℤ) :
    (addTerminal ks name state now id).index key =
      if key = .finished state ∨ key = .terminal name state then (ks.index key).add id now
      else ks.index key := by
  cases key <;> simp [Keyspace.index, addTerminal]
  all_goals split_ifs <;> simp_all

@[simp] theorem index_remTerminal (name : String) (state : JobState) :
    (remTerminal ks name state id).index key =
      if key = .finished state ∨ key = .terminal name state then (ks.index key).rem id
      else ks.index key := by
  cases key <;> simp [Keyspace.index, remTerminal]
  all_goals split_ifs <;> simp_all

end Index

section Moves

variable {ks : Keyspace V} {id : JobId} {job : JobHash V}

theorem get?_hset (hjob : ks.jobs.get? id = some job) (f : JobHash V → JobHash V) (id' : JobId) :
    (ks.jobs.modify id f).get? id' = if id' = id then some (f job) else ks.jobs.get? id' := by
  rw [JsMap.get?_modify, hjob]
  rfl

theorem upd_self {K α : Type} [DecidableEq K] (f : K → α) (k : K) : upd f k (f k) = f := by
  funext k'
  rw [upd_apply]
  split
  next hk => rw [hk]
  next => rfl

theorem counts_countsMove_self (ks : Keyspace V) (queue : QueueName) (state : JobState) :
    (countsMove ks queue state state).counts = ks.counts := by
  funext q st
  have hmove := counts_countsMove ks queue state state q st
  omega

theorem get?_same (hjob : ks.jobs.get? id = some job) (id' : JobId) :
    ks.jobs.get? id' = if id' = id then some job else ks.jobs.get? id' := by
  split
  next hid => rw [hid, hjob]
  next => rfl

/-- A job is out of the sets it moves between, its hash and its ledger written or not. -/
structure Taken (indexes : IndexConfig) (ks ks₁ : Keyspace V) (id : JobId) (job job₁ : JobHash V)
    (attempts : List (AttemptRecord V)) : Prop where
  jobs : ∀ id', ks₁.jobs.get? id' = if id' = id then some job₁ else ks.jobs.get? id'
  listing : ks₁.all = ks.all ∧ ks₁.byname = ks.byname ∧ ks₁.byqueue = ks.byqueue
  home : ∀ key, key.isHome → ks₁.index key = (ks.index key).swap (job.listed indexes id key) none
  counts : ks₁.counts = ks.counts
  attempts : ks₁.attempts = upd ks.attempts id attempts
  seq : ks.seq ≤ ks₁.seq

/-! ### Taking a job out -/

section Take

variable (hjob : ks.jobs.get? id = some job)

include hjob

theorem taken_waiting (hwaiting : job.state = .waiting) :
    Taken indexes ks { ks with
      waiting := upd ks.waiting job.queue ((ks.waiting job.queue).rem (waitingMember job.seq id)) }
      id job job (ks.attempts id) := by
  refine ⟨get?_same hjob, ⟨rfl, rfl, rfl⟩, fun key hkey => ?_, rfl, (upd_self ..).symm, le_rfl⟩
  rw [listed_waiting hkey hwaiting, ZSet.swap_ite_none]
  refine Eq.trans ?_ (index_remWaiting ks id key hjob job.queue)
  rw [remWaiting, hjob]
  rfl

theorem taken_delayed (hdelayed : job.state = .delayed) :
    Taken indexes ks (remDelayed ks job.queue id) id job job (ks.attempts id) := by
  refine ⟨get?_same hjob, ⟨rfl, rfl, rfl⟩, fun key hkey => ?_, rfl, (upd_self ..).symm, le_rfl⟩
  rw [listed_delayed hkey hdelayed, ZSet.swap_ite_none, index_remDelayed]

theorem taken_active (h : Consistent indexes ks) (hactive : job.state = .active) :
    Taken indexes ks (remActive ks id) id job job (ks.attempts id) := by
  obtain ⟨t, ht⟩ := Option.isSome_iff_exists.mp ((h.sound id job hjob).stamped.locked hactive)
  refine ⟨get?_same hjob, ⟨rfl, rfl, rfl⟩, fun key hkey => ?_, rfl, (upd_self ..).symm, le_rfl⟩
  rw [listed_active hkey hactive ht, ZSet.swap_ite_none, index_remActive]

theorem taken_parked (hparked : job.state = .waitingChildren) :
    Taken indexes ks ks id job job (ks.attempts id) := by
  refine ⟨get?_same hjob, ⟨rfl, rfl, rfl⟩, fun key hkey => ?_, rfl, (upd_self ..).symm, le_rfl⟩
  rw [listed_parked hkey hparked, ZSet.swap_none_none]

theorem taken_terminal (h : Consistent indexes ks) (hterminal : job.state.isTerminal = true) :
    Taken indexes ks (remTerminal ks job.name job.state id) id job job (ks.attempts id) := by
  obtain ⟨t, ht⟩ := Option.isSome_iff_exists.mp ((h.sound id job hjob).stamped.finished hterminal)
  refine ⟨get?_same hjob, ⟨rfl, rfl, rfl⟩, fun key hkey => ?_, rfl, (upd_self ..).symm, le_rfl⟩
  rw [listed_terminal hkey hterminal ht, ZSet.swap_ite_none, index_remTerminal]

/-- A job that is not active: the script takes it out of both sets of its queue. -/
theorem taken_idle (h : Consistent indexes ks)
    (hidle : job.state = .waiting ∨ job.state = .delayed ∨ job.state = .waitingChildren) :
    Taken indexes ks (remDelayed (remWaiting ks job.queue id) job.queue id) id job job
      (ks.attempts id) := by
  have hnot : job.state ≠ .active ∧ job.state.isTerminal = false := by
    rcases hidle with hs | hs | hs <;> rw [hs] <;> exact ⟨by decide, rfl⟩
  refine ⟨get?_same hjob, ⟨rfl, rfl, rfl⟩, fun key hkey => ?_, rfl, (upd_self ..).symm, le_rfl⟩
  have habsent : job.listed indexes id key = none →
      (ks.index key).rem (memberOf id job.seq key) = ks.index key := fun hnone => by
    rw [h.rem_member hjob, hnone, ZSet.swap_none_none]
  rw [← h.rem_member hjob, index_remDelayed, index_remWaiting ks id key hjob]
  cases key <;> cases hkey <;> simp only [memberOf, reduceCtorEq, if_false] at habsent ⊢
  case waiting => split_ifs <;> simp_all [JobHash.listed]
  case delayed => split_ifs <;> simp_all [JobHash.listed]
  all_goals
    rw [habsent]
    simp [JobHash.listed, hnot]

end Take

namespace Taken

variable {ks₁ : Keyspace V} {job₁ : JobHash V} {attempts : List (AttemptRecord V)}
  (ht : Taken indexes ks ks₁ id job job₁ attempts)

include ht

theorem hset (f : JobHash V → JobHash V) :
    Taken indexes ks (Redis.hset ks₁ id f) id job (f job₁) attempts where
  jobs id' := by
    rw [Redis.hset, JsMap.get?_modify, ht.jobs, ht.jobs, if_pos rfl]
    split <;> rfl
  listing := ht.listing
  home key hkey := by rw [index_hset, ht.home key hkey]
  counts := ht.counts
  attempts := ht.attempts
  seq := ht.seq

theorem append (outcome : AttemptOutcome) (startedAt : Option ℤ) (now : ℤ) (exit : Option V) :
    Taken indexes ks (appendAttempt ks₁ id outcome startedAt now exit) id job job₁
      (appendOutcome startedAt attempts (outcome, now, exit)) where
  jobs := ht.jobs
  listing := ht.listing
  home key hkey := by rw [index_appendAttempt, ht.home key hkey]
  counts := ht.counts
  attempts := by
    funext id'
    simp only [appendAttempt, appendOutcome, ht.attempts, upd_apply, if_true]
    split <;> rfl
  seq := ht.seq

theorem bump : Taken indexes ks { ks₁ with seq := ks₁.seq + 1 } id job job₁ attempts where
  jobs := ht.jobs
  listing := ht.listing
  home key hkey := by rw [index_seq, ht.home key hkey]
  counts := ht.counts
  attempts := ht.attempts
  seq := ht.seq.trans (Nat.le_succ _)

theorem of_body {ks₂ : Keyspace V} (h : ks₂.body = ks₁.body) :
    Taken indexes ks ks₂ id job job₁ attempts := by
  simp only [Keyspace.body, Prod.mk.injEq] at h
  obtain ⟨hjobs, hattempts, hindex, hcounts, hseq⟩ := h
  obtain ⟨hall, hbyname, hbyqueue⟩ := ht.listing
  refine ⟨?_, ⟨?_, ?_, ?_⟩, ?_, hcounts.trans ht.counts, hattempts.trans ht.attempts, hseq ▸ ht.seq⟩
  · rw [hjobs]
    exact ht.jobs
  · exact (congrFun hindex .all).trans hall
  · funext name
    exact (congrFun hindex (.byname name)).trans (congrFun hbyname name)
  · funext queue
    exact (congrFun hindex (.byqueue queue)).trans (congrFun hbyqueue queue)
  · rw [hindex]
    exact ht.home

/-! ### Putting it back -/

variable (c : Change V) (hc : c.apply job = job₁) (hledger : c.ledger job (ks.attempts id) = attempts)

include hc hledger

/-- The job is listed at its new place and its counters move. -/
theorem put {ks' : Keyspace V} {state : JobState} (hjobs : ks'.jobs = ks₁.jobs)
    (hlisting : ks'.all = ks₁.all ∧ ks'.byname = ks₁.byname ∧ ks'.byqueue = ks₁.byqueue)
    (hhome : ∀ key, key.isHome → ks'.index key = (ks₁.index key).swap none (job₁.listed indexes id key))
    (hcounts : ks'.counts = (countsMove ks₁ job.queue job.state state).counts)
    (hattempts : ks'.attempts = ks₁.attempts) (hseq : ks'.seq = ks₁.seq) (hstate : job₁.state = state)
    (hnumber : job₁.seq = job.seq ∨ ks.seq < job₁.seq ∧ job₁.seq ≤ ks₁.seq) : Moves indexes ks ks' id job c := by
  obtain ⟨hall, hbyname, hbyqueue⟩ := hlisting
  obtain ⟨hall₁, hbyname₁, hbyqueue₁⟩ := ht.listing
  subst hc
  refine ⟨?_, ⟨hall.trans hall₁, hbyname.trans hbyname₁, hbyqueue.trans hbyqueue₁⟩, fun key hkey => ?_,
    ?_, ?_, hseq ▸ ht.seq, hseq ▸ hnumber⟩
  · rw [hjobs]
    exact ht.jobs
  · rw [hhome key hkey, ht.home key hkey]
    cases job.listed indexes id key <;> cases (c.apply job).listed indexes id key <;> rfl
  · rw [hcounts, hstate, countsMove, countsAdd, countsAdd, ht.counts]
    rfl
  · rw [hattempts, ht.attempts, hledger]

theorem wait (hstate : job₁.state = .waiting) (hnumber : job₁.seq = job.seq ∨ ks.seq < job₁.seq ∧ job₁.seq ≤ ks₁.seq) :
    Moves indexes ks
      (countsMove (addWaiting ks₁ job₁.queue job₁.priority job₁.seq id) job.queue job.state .waiting)
      id job c := by
  refine ht.put c hc hledger rfl ⟨rfl, rfl, rfl⟩ (fun key hkey => ?_) rfl rfl rfl hstate hnumber
  rw [listed_waiting hkey hstate, ZSet.swap_none_ite, index_countsMove, index_addWaiting]

theorem delay (hstate : job₁.state = .delayed) (hnumber : job₁.seq = job.seq ∨ ks.seq < job₁.seq ∧ job₁.seq ≤ ks₁.seq) :
    Moves indexes ks
      (countsMove (addDelayed ks₁ job₁.queue job₁.runAt id) job.queue job.state .delayed) id job c := by
  refine ht.put c hc hledger rfl ⟨rfl, rfl, rfl⟩ (fun key hkey => ?_) rfl rfl rfl hstate hnumber
  rw [listed_delayed hkey hstate, ZSet.swap_none_ite, index_countsMove, index_addDelayed]

theorem activate (hstate : job₁.state = .active) {expiresAt : ℤ}
    (hexpires : job₁.lockExpiresAt = some expiresAt) (hnumber : job₁.seq = job.seq ∨ ks.seq < job₁.seq ∧ job₁.seq ≤ ks₁.seq) :
    Moves indexes ks (countsMove (addActive ks₁ expiresAt id) job.queue job.state .active) id job c := by
  refine ht.put c hc hledger rfl ⟨rfl, rfl, rfl⟩ (fun key hkey => ?_) rfl rfl rfl hstate hnumber
  rw [listed_active hkey hstate hexpires, ZSet.swap_none_ite, index_countsMove, index_addActive]

theorem park (hstate : job₁.state = .waitingChildren) (hnumber : job₁.seq = job.seq ∨ ks.seq < job₁.seq ∧ job₁.seq ≤ ks₁.seq) :
    Moves indexes ks (countsMove ks₁ job.queue job.state .waitingChildren) id job c := by
  refine ht.put c hc hledger rfl ⟨rfl, rfl, rfl⟩ (fun key hkey => ?_) rfl rfl rfl hstate hnumber
  rw [listed_parked hkey hstate, ZSet.swap_none_none, index_countsMove]

theorem finish (state : TerminalState) (hstate : job₁.state = state.toJobState) {now : ℤ}
    (hfinished : job₁.finishedAt = some now) (hnumber : job₁.seq = job.seq ∨ ks.seq < job₁.seq ∧ job₁.seq ≤ ks₁.seq) :
    Moves indexes ks
      (addTerminal (countsMove ks₁ job.queue job.state state.toJobState) job₁.name state.toJobState now id)
      id job c := by
  have hterminal : job₁.state.isTerminal = true := by
    rw [hstate]
    exact isTerminal_toJobState _
  refine ht.put c hc hledger rfl ⟨rfl, rfl, rfl⟩ (fun key hkey => ?_) rfl rfl rfl hstate hnumber
  rw [listed_terminal hkey hterminal hfinished, ZSet.swap_none_ite, index_addTerminal, index_countsMove,
    hstate]

end Taken

end Moves

section Rewrite

variable {ks : Keyspace V} {id : JobId} {job : JobHash V}

theorem moves_extend (h : Consistent indexes ks) (hjob : ks.jobs.get? id = some job)
    (hactive : job.state = .active) (expiresAt : ℤ) :
    Moves indexes ks
      (addActive (hset ks id fun job => { job with lockExpiresAt := some expiresAt }) expiresAt id) id job
      (.extend expiresAt) := by
  obtain ⟨t, ht⟩ := Option.isSome_iff_exists.mp ((h.sound id job hjob).stamped.locked hactive)
  refine ⟨get?_hset hjob _, ⟨rfl, rfl, rfl⟩, fun key hkey => ?_, ?_, ?_, le_rfl, .inl rfl⟩
  · have hextended : ((Change.extend expiresAt).apply job).listed indexes id key =
        if key = .active then some (id, expiresAt) else none :=
      listed_active hkey (by exact hactive) rfl
    rw [listed_active hkey hactive ht, hextended, ZSet.swap_ite]
    simp only [index_addActive, index_hset]
    split_ifs <;> simp
  · exact (counts_countsMove_self ks job.queue job.state).symm
  · exact (upd_self ks.attempts id).symm

/-- The latest request of a delayed job wins. -/
theorem moves_replace (hjob : ks.jobs.get? id = some job)
    (hdelayed : job.state = .delayed) (request : EnqueueRequest V) (now : ℤ) :
    Moves indexes ks
      (addDelayed (hset ks id fun job => replaceHash job request now) job.queue
        (now + max 0 request.delayMs) id) id job (.replace request now) := by
  refine ⟨get?_hset hjob _, ⟨rfl, rfl, rfl⟩, fun key hkey => ?_, ?_, ?_, le_rfl, .inl rfl⟩
  · rw [listed_delayed hkey hdelayed, listed_delayed hkey (by exact hdelayed), ZSet.swap_ite]
    simp only [index_addDelayed, index_hset, Change.apply, replaceHash]
    split_ifs <;> simp
  · exact (counts_countsMove_self ks job.queue job.state).symm
  · exact (upd_self ks.attempts id).symm

/-- A write of fields that no index reads. -/
theorem moves_hset (h : Consistent indexes ks) (hjob : ks.jobs.get? id = some job) (c : Change V)
    (f : JobHash V → JobHash V) (hf : f job = c.apply job) (hout : c.outcomes = [])
    (hstate : (c.apply job).state = job.state) (hseq : (c.apply job).seq = job.seq)
    (hlisted : ∀ key, (c.apply job).listed indexes id key = job.listed indexes id key) :
    Moves indexes ks (hset ks id f) id job c := by
  refine ⟨?_, ⟨rfl, rfl, rfl⟩, fun key hkey => ?_, ?_, ?_, le_rfl, .inl hseq⟩
  · rw [← hf]
    exact get?_hset hjob f
  · have hself := h.lists.swap_self id key
    rw [hjob, entryOf_some] at hself
    rw [hlisted, index_hset, hself]
  · rw [hstate]
    exact (counts_countsMove_self ks job.queue job.state).symm
  · rw [Change.ledger, hout]
    exact (upd_self ks.attempts id).symm

end Rewrite

end EffectMq.Redis
