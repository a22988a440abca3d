import EffectMq.MemoryJobStore.Frame

/-! # The FIFO order

A job takes its place in the FIFO order from the store's `seq` counter: when it is inserted, retried
or made runnable again. No two jobs of a reachable store share a place (`reachable_seqInv`).
-/

namespace EffectMq.Memory
set_option autoImplicit false
set_option maxHeartbeats 250000

open Transition

variable {V : Type}

structure SeqInv (s : Store V) : Prop where
  bound : ∀ id job, s.jobs.get? id = some job → job.seq ≤ s.seq
  inj : ∀ id id' job job', s.jobs.get? id = some job → s.jobs.get? id' = some job' →
    job.seq = job'.seq → id = id'

/-- The id is that of a job at this place. -/
def Core.AtPlace (c : Core V) (id : JobId) (seq : ℕ) : Prop :=
  ∃ job, c.jobs.get? id = some job ∧ job.seq = seq

/-- Every job was there before, at the same place. -/
def Core.SamePlaces (c c' : Core V) : Prop :=
  ∀ id job', c'.jobs.get? id = some job' → c.AtPlace id job'.seq

/-! ## What keeps the order -/

theorem Core.SamePlaces.refl (c : Core V) : c.SamePlaces c := fun _ job hj => ⟨job, hj, rfl⟩

theorem SeqInv.same {s t : Store V} (h : SeqInv s) (hseq : s.seq ≤ t.seq)
    (hjobs : s.toCore.SamePlaces t.toCore) : SeqInv t := by
  refine ⟨fun id job' hj => ?_, fun id id' job job' hj hj' heq => ?_⟩
  · obtain ⟨job, hjs, hsame⟩ := hjobs id job' hj
    have hle := h.bound id job hjs
    omega
  · obtain ⟨a, ha, hsame⟩ := hjobs id job hj
    obtain ⟨b, hb, hsame'⟩ := hjobs id' job' hj'
    exact h.inj id id' a b ha hb (by omega)

/-- A job is written at a place that no job has had. -/
theorem SeqInv.fresh {s t : Store V} (h : SeqInv s) (job : MemJob V) (hseq : t.seq = s.seq + 1)
    (hplace : job.seq = t.seq) (hjobs : t.jobs = s.jobs.set job.id job) : SeqInv t := by
  have hlt : ∀ id j, s.jobs.get? id = some j → j.seq < t.seq := by
    intro id j hj
    have hle := h.bound id j hj
    omega
  have hget : ∀ id, t.jobs.get? id = if id = job.id then some job else s.jobs.get? id := by
    intro id
    rw [hjobs, JsMap.get?_set]
  refine ⟨fun id j hj => ?_, fun id id' j j' hj hj' heq => ?_⟩
  · rw [hget] at hj
    split at hj
    · cases hj
      exact hplace.le
    · exact (hlt id j hj).le
  · rw [hget] at hj hj'
    split at hj <;> split at hj'
    · rename_i hid hid'
      exact hid.trans hid'.symm
    · cases hj
      have hless := hlt id' j' hj'
      omega
    · cases hj'
      have hless := hlt id j hj
      omega
    · exact h.inj id id' j j' hj hj' heq

/-- The elementary steps that give no job a new place. -/
def Label.Placeless : Label V → Prop
  | .insert _ _ _ _ => False
  | .move _ (.requeue _ _ _ _) | .move _ (.retry _ _) | .move _ (.resume _ _) => False
  | _ => True

theorem placeless_jobs {c c' : Core V} (hk : c.Keyed) (h : Does Label.Placeless c c') :
    c.SamePlaces c' := by
  intro id job' hj
  refine h.view hk id (I := fun v => ∀ job', v.job = some job' →
    ∃ job, c.jobs.get? id = some job ∧ job.seq = job'.seq) (fun l v v' hl hstep _ hv job' hj => ?_)
    (fun job hjob => ⟨job, hjob, rfl⟩) job' hj
  cases hstep with
  | same | rearm | cascade => exact hv job' hj
  | insert => exact hl.elim
  | remove | prune => cases hj
  | promote =>
    obtain ⟨job, hjob, hseq⟩ := hv _ rfl
    cases hj
    exact ⟨job, hjob, hseq⟩
  | move m =>
    obtain ⟨job, hjob, hseq⟩ := hv _ rfl
    cases hj
    cases m with
    | requeue | retry | resume => exact hl.elim
    | _ => exact ⟨job, hjob, hseq⟩
  | finish e | settle e =>
    obtain ⟨job, hjob, hseq⟩ := hv _ rfl
    cases hj
    cases e <;> exact ⟨job, hjob, hseq⟩
  | fanOut | refan =>
    obtain ⟨job, hjob, hseq⟩ := hv _ rfl
    cases hj
    exact ⟨job, hjob, hseq⟩
  | report job? =>
    obtain ⟨job, rfl, rfl⟩ := Option.map_eq_some_iff.mp hj
    exact hv job rfl

theorem SeqInv.placeless {s t : Store V} (h : SeqInv s) (hk : s.toCore.Keyed) (hseq : t.seq = s.seq)
    (hdoes : Does Label.Placeless s.toCore t.toCore) : SeqInv t :=
  h.same hseq.ge (placeless_jobs hk hdoes)

/-! ## The counter -/

@[simp] theorem signalWake_seq (s : Store V) (queue : Option QueueName) :
    (signalWake s queue).seq = s.seq := by
  cases queue <;> rfl

theorem aside_seq : Aside fun s : Store V => s.seq :=
  ⟨fun _ _ => rfl, fun _ _ => rfl, signalWake_seq⟩

/-- The operations that give no job a new place. -/
def PlacelessOp : Op V → Prop
  | .enqueue _ _ | .resumeEnqueue _ _ | .ack _ _ _ | .retry _ | .tickSchedule _ _ _ _
  | .recordChildResults _ => False
  | _ => True

theorem exec_seq (s : Store V) (now : Millis) {op : Op V} (hop : PlacelessOp op) :
    (exec s now op).seq = s.seq := by
  cases op with
  | enqueue | resumeEnqueue | ack | retry | tickSchedule | recordChildResults => exact hop.elim
  | awaitWake queues wakeToken =>
    simp only [exec, awaitWake]
    split <;> rfl
  | dropWaiter | removeSchedule => rfl
  | pause queue =>
    simp only [exec, pause]
    split <;> rfl
  | resume queue =>
    simp only [exec, resume]
    split
    · exact signalWake_seq ..
    · rfl
  | upsertSchedule schedule => exact signalWake_seq ..
  | advanceSchedule key expectedRunAt nextRunAt =>
    simp only [exec, advanceSchedule]
    split
    · rfl
    · split <;> rfl
  | _ => exact aside_seq.exec s now trivial

/-! ## Operations -/

theorem seq_withCore (s : Store V) (c : Core V) : { s with toCore := c }.seq = s.seq := rfl

theorem makeRunnable_seqInv {s t : Store V} (h : SeqInv s) (hseq : t.seq = s.seq)
    (hjobs : t.jobs = s.jobs) (job : MemJob V) (now : Millis) :
    SeqInv (makeRunnable t job now) := by
  refine h.fresh { job with state := .waiting, runAt := now, seq := t.seq + 1 } ?_ ?_ ?_
  · rw [makeRunnable, signalWake_seq, ← hseq]
    rfl
  · rw [makeRunnable, signalWake_seq]
    rfl
  · rw [makeRunnable, signalWake_jobs, ← hjobs]
    rfl

theorem insertFresh_seqInv {s t : Store V} (h : SeqInv s) (hseq : t.seq = s.seq)
    (hjobs : t.jobs = s.jobs) (now : Millis) (request : EnqueueRequest V) (id : JobId) :
    SeqInv (insertFresh t now request id) := by
  have hsame : (insertFresh t now request id).seq = s.seq + 1 := by
    unfold insertFresh
    simp only
    split <;> rw [← hseq] <;> rfl
  refine h.fresh (newJob id request now (t.seq + 1)) hsame ?_ ?_
  · rw [hsame, ← hseq]
    rfl
  · rw [insertFresh_toCore, ← hjobs]
    rfl

theorem enqueueOne_seqInv {s : Store V} (h : SeqInv s) (now : Millis) (request : EnqueueRequest V)
    (ids : IdSource) (hk : s.toCore.Keyed) : SeqInv (enqueueOne s now request ids).2 := by
  have hspec := enqueueOne_spec s now request ids
  generalize (enqueueOne s now request ids).1 = result at hspec
  generalize (enqueueOne s now request ids).2 = t at hspec ⊢
  cases hspec with
  | duplicate | exhausted | pending => exact h
  | @replaced dedupe entry keyed _ _ _ hj =>
    refine h.same ?_ fun id job' hj' => ?_
    · rw [signalWake_seq, aside_seq.setWindow, aside_seq.putJob]
    have hid : keyed.id = entry.jobId := hk _ _ hj
    rw [signalWake_toCore, setWindow_toCore, putJob_toCore, putJob_get?] at hj'
    split at hj'
    · rename_i heq
      have hat : id = entry.jobId := heq.trans hid
      cases hj'
      exact ⟨keyed, hat ▸ hj, rfl⟩
    · exact ⟨job', hj', rfl⟩
  | windowed =>
    split
    · refine h.same (aside_seq.setWindow ..).ge fun id job' hj' => ⟨job', ?_, rfl⟩
      rwa [setWindow_toCore] at hj'
    · exact h
  | inserted counter =>
    exact insertFresh_seqInv (t := { s with idCounter := counter }) h rfl rfl now request _

theorem terminate_seqInv {s t : Store V} (h : SeqInv s) (hseq : t.seq = s.seq)
    (hjobs : t.jobs = s.jobs) {job : MemJob V} (hj : s.toCore.AtPlace job.id job.seq) (outcome : TerminalState) (now : Millis) :
    SeqInv (t.terminate job outcome now) := by
  refine h.same ((aside_seq.terminate ..).trans hseq).ge fun id job' hj' => ?_
  rw [terminate_toCore] at hj'
  have hput := applyKeep_get? hj'
  rw [appendOutbox_jobs, putJob_get?] at hput
  split at hput
  · rename_i hid
    cases hput
    exact hid ▸ hj
  · exact ⟨job', hjobs ▸ hput, rfl⟩

theorem markCancelled_seqInv {s t : Store V} (h : SeqInv s) (hseq : t.seq = s.seq)
    (hjobs : t.jobs = s.jobs) {job : MemJob V} (hj : s.toCore.AtPlace job.id job.seq) (now : Millis) : SeqInv (markCancelled t job now) := by
  unfold markCancelled
  simp only [settleIfParked_eq]
  refine terminate_seqInv h ?_ ?_ ?_ .cancelled now
  · exact hseq
  · exact (settledRows_jobs ..).trans hjobs
  · exact hj

theorem ackFanOut_seqInv {s : Store V} (h : SeqInv s) (now : Millis) {job : MemJob V}
    (hj : s.toCore.AtPlace job.id job.seq) (failFast : Bool)
    (children : List (FlowChildSpec V)) : SeqInv (ackFanOut s now job failFast children) := by
  unfold ackFanOut
  simp only [openManifest_eq]
  split
  · refine markCancelled_seqInv h ?_ ?_ ?_ now
    · exact seq_withCore s _
    · rw [settleMarkRows_jobs, fanOutRows_jobs]
    · rw [settleMarkRows_eq]
      exact hj
  · split
    · refine h.same le_rfl fun id job' hj' => ?_
      rw [putJob_toCore, putJob_get?, fanOutRows_jobs] at hj'
      split at hj'
      · rename_i hid
        cases hj'
        exact hid ▸ hj
      · exact ⟨job', hj', rfl⟩
    · exact makeRunnable_seqInv h (seq_withCore s _) (fanOutRows_jobs ..) _ now

theorem ackOutcome_seqInv {s : Store V} (h : SeqInv s) (hk : s.toCore.Keyed) (now : Millis)
    {id : JobId} {job : MemJob V} (hj : s.jobs.get? id = some job) (outcome : AckOutcome V) :
    SeqInv (ackOutcome s now job outcome) := by
  obtain rfl := hk _ _ hj
  have hplace : s.toCore.AtPlace job.id job.seq := ⟨job, hj, rfl⟩
  unfold ackOutcome
  cases outcome with
  | complete | fail | cancelled =>
    refine terminate_seqInv h rfl rfl ?_ _ now
    exact hplace
  | fanOut failFast children =>
    refine ackFanOut_seqInv h now ?_ failFast children
    exact hplace
  | retry delayMs exit =>
    simp only
    split
    · refine markCancelled_seqInv h rfl rfl ?_ now
      exact hplace
    · refine h.fresh ((Move.requeue delayMs exit now (s.seq + 1)).apply job) ?_ ?_ ?_
      · rw [signalWake_seq]
        rfl
      · rw [signalWake_seq]
        rfl
      · rw [signalWake_jobs]
        rfl

theorem ack_seqInv {s : Store V} (h : SeqInv s) (hk : s.toCore.Keyed) (now : Millis) (id : JobId)
    (token : String) (outcome : AckOutcome V) : SeqInv (ack s now id token outcome).2 := by
  cases hres : (ack s now id token outcome).1 with
  | error e =>
    rw [ack_error hres]
    exact h
  | ok u =>
    obtain ⟨job, hj, _, _, heq⟩ := ack_ok hres
    rw [heq]
    exact ackOutcome_seqInv h hk now hj outcome

theorem retry_seqInv {s : Store V} (h : SeqInv s) (hk : s.toCore.Keyed) (now : Millis) (id : JobId) :
    SeqInv (retry s now id).2 := by
  unfold retry
  split
  · exact h
  · rename_i job hj
    obtain rfl := hk _ _ hj
    split
    · exact h
    · refine h.fresh ((Move.retry now (s.seq + 1)).apply job) ?_ ?_ ?_
      · rw [signalWake_seq]
        rfl
      · rw [signalWake_seq]
        rfl
      · rw [signalWake_jobs]
        rfl

theorem tickSchedule_seqInv {s : Store V} (h : SeqInv s) (now : Millis) (key : ScheduleKey)
    (expectedRunAt nextRunAt : Millis) (request : EnqueueRequest V) :
    SeqInv (tickSchedule s now key expectedRunAt nextRunAt request).2 := by
  unfold tickSchedule
  split
  · exact h
  · rename_i id _
    split
    · exact h
    · split
      · exact h
      · simp only
        split
        · exact ⟨h.bound, h.inj⟩
        · refine h.fresh (newJob id request now (s.seq + 1)) ?_ ?_ ?_
          · rw [insertJobRecord, signalWake_seq]
            rfl
          · rw [insertJobRecord, signalWake_seq]
            rfl
          · rw [insertJobRecord, signalWake_jobs]
            rfl

/-- One settle of `recordChildResults`: the flow keeps its place, or is run at a new one. -/
theorem settleTouched_seqInv (now : Millis) (reports : List (FlowChildReport V))
    (acc : List ReportResult × Store V) (entry : JobId × Touch) (h : SeqInv acc.2)
    (hk : acc.2.toCore.Keyed) : SeqInv (settleTouched now reports acc entry).2 := by
  unfold settleTouched
  simp only
  split
  · exact h
  · rename_i parent hj
    have hid : parent.id = entry.1 := hk _ _ hj
    split
    · exact h
    · split
      · exact h
      · split
        · unfold settleFailFast
          simp only [settleMarkRows_eq]
          refine terminate_seqInv h ?_ ?_ ?_ .failed now
          · exact seq_withCore acc.2 _
          · exact markPendingRowsCancelled_jobs ..
          · exact ⟨parent, hid.symm ▸ hj, rfl⟩
        · split
          · exact makeRunnable_seqInv h rfl rfl parent now
          · exact h

theorem recordChildResults_seqInv {s : Store V} (h : SeqInv s) (hk : s.toCore.Keyed) (now : Millis)
    (reports : List (FlowChildReport V)) : SeqInv (recordChildResults s now reports).2 := by
  have hcore : SeqInv { s with toCore := (recorded s reports).core } :=
    h.placeless hk rfl ((recorded_reports s reports).mono fun l hl => by
      obtain ⟨report, _, rfl⟩ := hl
      trivial)
  have hfold : ∀ (entries : List (JobId × Touch)) (acc : List ReportResult × Store V),
      SeqInv acc.2 → acc.2.toCore.Keyed →
      SeqInv (entries.foldl (settleTouched now reports) acc).2 := by
    intro entries
    induction entries with
    | nil => exact fun _ h _ => h
    | cons entry entries ih =>
      intro acc hacc hkacc
      exact ih _ (settleTouched_seqInv now reports acc entry hacc hkacc)
        ((settleTouched_does now reports acc entry hkacc).keyed hkacc)
  exact hfold _ _ hcore ((recorded_does s now reports).keyed hk)

/-- Two jobs never get the same place, whatever the operation. -/
theorem exec_seqInv {s : Store V} (h : SeqInv s) (hk : s.toCore.Keyed) (now : Millis) (op : Op V) :
    SeqInv (exec s now op) := by
  have hdoes := exec_does hk now op
  have hquiet : (exec s now op).seq = s.seq → (∀ l, Allows now op l → l.Placeless) →
      SeqInv (exec s now op) := fun hseq hl => h.placeless hk hseq (hdoes.mono hl)
  cases op with
  | enqueue request ids => exact enqueueOne_seqInv h now request ids hk
  | resumeEnqueue request candidate =>
    simp only [exec, resumeEnqueue]
    split
    · exact h
    · exact insertFresh_seqInv h rfl rfl now request candidate
  | ack id token outcome => exact ack_seqInv h hk now id token outcome
  | retry id => exact retry_seqInv h hk now id
  | tickSchedule key expectedRunAt nextRunAt request =>
    exact tickSchedule_seqInv h now key expectedRunAt nextRunAt request
  | recordChildResults reports => exact recordChildResults_seqInv h hk now reports
  | _ =>
    refine hquiet (exec_seq s now trivial) fun l hl => ?_
    cases hl <;> trivial

theorem reachable_seqInv {s : Store V} (h : Reachable Initial Next s) : SeqInv s := by
  have hinv : s.toCore.Keyed ∧ SeqInv s := by
    refine h.induct (I := fun s => s.toCore.Keyed ∧ SeqInv s) ?_ ?_
    · rintro s rfl
      exact ⟨fun _ _ hj => (by cases hj), ⟨fun _ _ hj => (by cases hj), fun _ _ _ _ hj => (by cases hj)⟩⟩
    · rintro s event t rfl ⟨hk, hs⟩
      exact ⟨exec_keyed hk event.1 event.2, exec_seqInv hs hk event.1 event.2⟩
  exact hinv.2

end EffectMq.Memory
