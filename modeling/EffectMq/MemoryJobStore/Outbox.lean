import EffectMq.MemoryJobStore.Records

/-! # The outbox

One report for each terminal transition. `reports` is the specification: the entries owed for the
jobs an operation ends, numbered on from the sequence counter. `Step.outbox` reads the entries off
an elementary step, and `EndRun` is the invariant along the steps of one operation that makes them
the entries of exactly the jobs the operation moved into a terminal state.
-/

namespace EffectMq.Memory
set_option autoImplicit false
set_option maxHeartbeats 250000

open Transition

variable {V : Type}

/-! ## The entries owed -/

def outboxEntry (id : ℕ) (job : MemJob V) (parent : ParentEnvelope) (outcome : TerminalState) :
    OutboxEntry V where
  id := id
  flowName := parent.flowName
  parentStoreKey := parent.parentStoreKey
  report :=
    { flowId := parent.flowId, childKey := parent.childKey, outcome, exit := job.exit,
      failedReason := job.failedReason }

/-- One entry for each ended job that carries an envelope. -/
def reports (seq : ℕ) : List (MemJob V) → List (OutboxEntry V)
  | [] => []
  | job :: jobs =>
    match job.parent, job.state.terminal? with
    | some parent, some outcome =>
      outboxEntry (seq + 1) job parent outcome :: reports (seq + 1) jobs
    | _, _ => reports seq jobs

theorem reports_append (xs ys : List (MemJob V)) : ∀ seq,
    reports seq (xs ++ ys) = reports seq xs ++ reports (seq + (reports seq xs).length) ys := by
  induction xs with
  | nil => intro seq; rfl
  | cons job jobs ih =>
    intro seq
    simp only [List.cons_append, reports]
    split
    · rw [ih, List.cons_append, List.length_cons]
      congr 3
      omega
    · exact ih seq

theorem mem_reports {e : OutboxEntry V} {jobs : List (MemJob V)} : ∀ {seq : ℕ},
    e ∈ reports seq jobs → seq < e.id ∧ e.id ≤ seq + (reports seq jobs).length := by
  induction jobs with
  | nil =>
    intro seq h
    cases h
  | cons job jobs ih =>
    intro seq h
    simp only [reports] at h ⊢
    split at h
    · rcases List.mem_cons.mp h with rfl | h
      · exact ⟨Nat.lt_succ_self seq, by simp [outboxEntry]⟩
      · have hid := ih h
        rw [List.length_cons]
        omega
    · exact ih h

/-- An entry is of a job with the envelope it names. -/
theorem reports_envelope {e : OutboxEntry V} {jobs : List (MemJob V)} : ∀ {seq : ℕ},
    e ∈ reports seq jobs → ∃ job ∈ jobs, ∃ envelope, job.parent = some envelope ∧
      e.parentStoreKey = envelope.parentStoreKey ∧ e.report.flowId = envelope.flowId ∧
      e.report.childKey = envelope.childKey := by
  induction jobs with
  | nil =>
    intro seq h
    cases h
  | cons job jobs ih =>
    intro seq h
    simp only [reports] at h
    split at h
    · rename_i envelope _ hparent _
      rcases List.mem_cons.mp h with rfl | h
      · exact ⟨job, List.mem_cons_self, envelope, hparent, rfl, rfl, rfl⟩
      · obtain ⟨job', hmem, hrest⟩ := ih h
        exact ⟨job', List.mem_cons_of_mem _ hmem, hrest⟩
    · obtain ⟨job', hmem, hrest⟩ := ih h
      exact ⟨job', List.mem_cons_of_mem _ hmem, hrest⟩

theorem reports_nodup (jobs : List (MemJob V)) : ∀ seq, ((reports seq jobs).map (·.id)).Nodup := by
  induction jobs with
  | nil => exact fun _ => List.nodup_nil
  | cons job jobs ih =>
    intro seq
    simp only [reports]
    split
    · rw [List.map_cons, List.nodup_cons]
      refine ⟨fun hm => ?_, ih _⟩
      obtain ⟨e, he, hid⟩ := List.mem_map.mp hm
      have hlt := (mem_reports he).1
      simp only [outboxEntry] at hid
      omega
    · exact ih seq

/-- Each ended job with an envelope has its entry. -/
theorem exists_report {jobs : List (MemJob V)} {job : MemJob V} (hm : job ∈ jobs)
    {parent : ParentEnvelope} (hp : job.parent = some parent) {outcome : TerminalState}
    (ho : job.state.terminal? = some outcome) : ∀ seq,
    ∃ id, outboxEntry id job parent outcome ∈ reports seq jobs := by
  induction jobs with
  | nil => cases hm
  | cons first jobs ih =>
    intro seq
    rcases List.mem_cons.mp hm with rfl | hm
    · refine ⟨seq + 1, ?_⟩
      simp only [reports, hp, ho]
      exact List.mem_cons_self
    · simp only [reports]
      split
      · obtain ⟨id, hid⟩ := ih hm (seq + 1)
        exact ⟨id, List.mem_cons_of_mem _ hid⟩
      · exact ih hm seq

theorem appendOutbox_eq (c : Core V) (job : MemJob V) (outcome : TerminalState)
    (h : job.state.terminal? = some outcome) :
    (c.appendOutbox job outcome).outbox = c.outbox ++ reports c.outboxSeq [job] ∧
    (c.appendOutbox job outcome).outboxSeq =
      c.outboxSeq + (reports c.outboxSeq [job]).length := by
  unfold Core.appendOutbox
  cases hp : job.parent with
  | none => simp [reports, hp]
  | some parent => simp [reports, hp, h, outboxEntry]

/-! ## The entries of an elementary step -/

/-- The record of the job a step ends, right after it. -/
def Core.ended (c : Core V) : Label V → List (MemJob V)
  | .finish id e now =>
    match c.jobs.get? id with
    | some job => [endJob { job with flow := c.settledFlow? job } now e]
    | none => []
  | _ => []

def Label.drops : Label V → List ℕ
  | .dropOutbox ids => ids
  | _ => []

@[simp] theorem markPendingRowsCancelled_outbox (c : Core V) (id : JobId) :
    (c.markPendingRowsCancelled id).1.outbox = c.outbox ∧
      (c.markPendingRowsCancelled id).1.outboxSeq = c.outboxSeq := by
  unfold Core.markPendingRowsCancelled
  split <;> exact ⟨rfl, rfl⟩

theorem settledRows_outbox (c : Core V) (job : MemJob V) :
    (c.settledRows job).outbox = c.outbox ∧ (c.settledRows job).outboxSeq = c.outboxSeq := by
  unfold Core.settledRows
  split
  · exact markPendingRowsCancelled_outbox c job.id
  · exact ⟨rfl, rfl⟩

theorem fanOutRows_outbox (c : Core V) (job : MemJob V) (children : List (FlowChildSpec V))
    (now : Millis) :
    (c.fanOutRows job children now).outbox = c.outbox ∧
      (c.fanOutRows job children now).outboxSeq = c.outboxSeq := by
  unfold Core.fanOutRows
  split <;> exact ⟨rfl, rfl⟩

theorem applyReport_outbox (c : Core V) (row : MemFlowChild V) (report : FlowChildReport V) :
    (c.applyReport row report).outbox = c.outbox ∧
      (c.applyReport row report).outboxSeq = c.outboxSeq := by
  unfold Core.applyReport
  simp only
  split
  · exact ⟨rfl, rfl⟩
  · split <;> exact ⟨rfl, rfl⟩

theorem Step.outbox {c d : Core V} {l : Label V} (h : Step c l d) (hl : l.drops = []) :
    d.outbox = c.outbox ++ reports c.outboxSeq (c.ended l) ∧
      d.outboxSeq = c.outboxSeq + (reports c.outboxSeq (c.ended l)).length := by
  have hsame : ∀ e : Core V, e.outbox = c.outbox ∧ e.outboxSeq = c.outboxSeq →
      e.outbox = c.outbox ++ reports c.outboxSeq [] ∧
        e.outboxSeq = c.outboxSeq + (reports c.outboxSeq ([] : List (MemJob V))).length := by
    intro e he
    rw [he.1, he.2]
    simp [reports]
  cases h with
  | @finish id job e now hj he =>
    have h := appendOutbox_eq ((c.settledRows job).putJob
      (endJob { job with flow := c.settledFlow? job } now e))
      (endJob { job with flow := c.settledFlow? job } now e) e.outcome
      (by rw [endJob_state, terminal?_toJobState])
    have hout := settledRows_outbox c job
    rw [Core.ended, hj, finish_eq]
    rwa [putJob_outbox, hout.1, show ((c.settledRows job).putJob _).outboxSeq = _ from hout.2] at h
  | park failFast children now hj ha =>
    exact hsame _ (fanOutRows_outbox c _ children now)
  | report report hrow hp => exact hsame _ (applyReport_outbox c _ report)
  | dropOutbox ids =>
    cases hl
    refine hsame _ ⟨?_, rfl⟩
    simp
  | _ => exact hsame _ ⟨rfl, rfl⟩

/-! ## Live jobs inside one operation -/

/-- What the reports of a job are made of stays as it is while the job is live. -/
structure Kin (a b : MemJob V) : Prop where
  parent : b.parent = a.parent
  exit : b.exit = a.exit
  failedReason : b.failedReason = a.failedReason

theorem Kin.refl (job : MemJob V) : Kin job job := ⟨rfl, rfl, rfl⟩

theorem Kin.trans {a b c : MemJob V} (h : Kin a b) (h' : Kin b c) : Kin a c :=
  ⟨h'.parent.trans h.parent, h'.exit.trans h.exit, h'.failedReason.trans h.failedReason⟩

theorem Kin.endJob_eq {a b : MemJob V} (h : Kin a b) (now : Millis) (e : Ending V) :
    (endJob b now e).parent = a.parent ∧ (endJob b now e).exit = (endJob a now e).exit ∧
      (endJob b now e).failedReason = (endJob a now e).failedReason := by
  refine ⟨(endJob_parent b now e).trans h.parent, ?_, ?_⟩
  · cases e <;> first | rfl | exact h.exit
  · cases e <;> first | rfl | exact h.failedReason

theorem Move.Enabled.kin {job : MemJob V} {m : Move V} (hm : m.Enabled job)
    (ht : job.state.isTerminal = false) :
    (m.apply job).state.isTerminal = false ∧ Kin job (m.apply job) := by
  cases m with
  | replace | extend | requestCancel => exact ⟨ht, rfl, rfl, rfl⟩
  | promoteNow | claim | release | stall | resume => exact ⟨rfl, rfl, rfl, rfl⟩
  | requeue delayMs =>
    refine ⟨?_, rfl, rfl, rfl⟩
    simp only [Move.apply]
    split <;> rfl
  | retry =>
    have hst : job.state = .failed := hm
    rw [hst] at ht
    cases ht

/-- A live job stays live unless it is ended or removed. -/
theorem ViewStep.live {id : JobId} {l : Label V} {v v' : View V} (h : ViewStep id l v v')
    {job : MemJob V} (hj : v.job = some job) (ht : job.state.isTerminal = false)
    (hf : ∀ e now, l ≠ .finish id e now) (hr : l ≠ .remove id) :
    ∃ job', v'.job = some job' ∧ job'.state.isTerminal = false ∧ Kin job job' := by
  cases h with
  | same | rearm | cascade => exact ⟨job, hj, ht, .refl job⟩
  | insert => cases hj
  | promote =>
    cases hj
    exact ⟨_, rfl, rfl, rfl, rfl, rfl⟩
  | move m _ hm =>
    cases hj
    exact ⟨_, rfl, hm.kin ht⟩
  | finish | settle => exact absurd rfl (hf _ _)
  | fanOut | refan =>
    cases hj
    exact ⟨_, rfl, rfl, rfl, rfl, rfl⟩
  | report =>
    cases hj
    exact ⟨_, rfl, ht, rfl, rfl, rfl⟩
  | remove => exact absurd rfl hr
  | prune _ h =>
    rw [h job hj] at ht
    cases ht

/-- The steps of the operations that can end a job. -/
def Label.Mild : Label V → Prop
  | .finish _ _ _ | .prune _ | .park _ _ _ _ | .report _ => True
  | .move _ .requestCancel | .move _ (.requeue _ _ _ _) | .move _ .release | .move _ (.stall _)
  | .move _ (.resume _ _) => True
  | _ => False

theorem Allows.mild {now now' : Millis} {op : Op V} {id : JobId} {e : Ending V} {l : Label V}
    (h : Allows now op (.finish id e now')) (h' : Allows now op l) : l.Mild := by
  cases h <;> cases h' <;> trivial

theorem Allows.finish_now {now now' : Millis} {op : Op V} {id : JobId} {e : Ending V}
    (h : Allows now op (.finish id e now')) : now' = now := by
  cases h <;> rfl

/-- In an operation that can end jobs, a live job was live before. -/
theorem ViewStep.origin {id : JobId} {l : Label V} {v v' : View V} (h : ViewStep id l v v')
    (hl : l.Mild) {job' : MemJob V} (hj : v'.job = some job') (ht : job'.state.isTerminal = false) :
    ∃ job, v.job = some job ∧ job.state.isTerminal = false ∧ Kin job job' := by
  cases h with
  | same => exact ⟨job', hj, ht, .refl job'⟩
  | @move job m _ hm =>
    cases hj
    refine ⟨job, rfl, ?_, ?_⟩ <;> cases m <;> first | exact hl.elim | exact ⟨rfl, rfl, rfl⟩ | skip
    · have hst : job.state = .active := hm
      rw [hst]
      rfl
    all_goals rw [hm.1]; rfl
  | finish | settle =>
    cases hj
    rw [endJob_state, isTerminal_toJobState] at ht
    cases ht
  | fanOut _ _ _ _ ha | refan _ _ _ _ ha =>
    cases hj
    refine ⟨_, rfl, ?_, rfl, rfl, rfl⟩
    rw [ha]
    rfl
  | report =>
    obtain ⟨job, hj', rfl⟩ := Option.map_eq_some_iff.mp hj
    exact ⟨job, hj', ht, rfl, rfl, rfl⟩
  | prune => cases hj
  | _ => exact hl.elim

theorem Label.Mild.not_inserts {l : Label V} (h : l.Mild) : ¬ l.Inserts := by
  cases l with
  | insert => exact fun _ => h
  | _ => exact fun hi => hi

/-! ## The jobs one operation ends -/

/-- `r` is the record of a job right after `op` has moved it from a live into a terminal state. -/
def EndedBy (s : Store V) (now : Millis) (op : Op V) (r : MemJob V) : Prop :=
  ∃ job e, s.jobs.get? r.id = some job ∧ job.state.isTerminal = false ∧
    Allows now op (.finish r.id e now) ∧ r.state = e.outcome.toJobState ∧ r.parent = job.parent ∧
    r.exit = (endJob job now e).exit ∧ r.failedReason = (endJob job now e).failedReason

/-- The state `c` in the middle of `op`, after it has ended the jobs `ended`. -/
structure EndRun (s : Store V) (now : Millis) (op : Op V) (c : Core V) (ended : List (MemJob V)) :
    Prop where
  keyed : c.Keyed
  booked : ∀ id, Booked Covers (c.view id)
  outbox : c.outbox = s.outbox ++ reports s.outboxSeq ended
  outboxSeq : c.outboxSeq = s.outboxSeq + (reports s.outboxSeq ended).length
  nodup : (ended.map (·.id)).Nodup
  each : ∀ r ∈ ended, r.state.isTerminal = true ∧ EndedBy s now op r ∧
    (c.jobs.get? r.id = some r ∨ c.jobs.get? r.id = none)
  live : ∀ id job, s.jobs.get? id = some job → job.state.isTerminal = false → op ≠ .remove id →
    id ∉ ended.map (·.id) →
    ∃ job', c.jobs.get? id = some job' ∧ job'.state.isTerminal = false ∧ Kin job job'
  origin : (∃ id e, Allows now op (.finish id e now)) → ∀ id job', c.jobs.get? id = some job' →
    job'.state.isTerminal = false →
    ∃ job, s.jobs.get? id = some job ∧ job.state.isTerminal = false ∧ Kin job job'

theorem Core.mem_ended {c : Core V} {l : Label V} {r : MemJob V} (h : r ∈ c.ended l) :
    ∃ id e now job, l = .finish id e now ∧ c.jobs.get? id = some job ∧
      r = endJob { job with flow := c.settledFlow? job } now e := by
  cases l with
  | finish id e now =>
    rw [Core.ended] at h
    split at h
    · rename_i job hj
      exact ⟨id, e, now, job, rfl, hj, List.mem_singleton.mp h⟩
    · cases h
  | _ => cases h

theorem EndRun.ended_at {s : Store V} {now : Millis} {op : Op V} {c : Core V}
    {ended : List (MemJob V)} (h : EndRun s now op c ended) {id : JobId} {job : MemJob V}
    (hj : c.jobs.get? id = some job) (ht : job.state.isTerminal = false) :
    id ∉ ended.map (·.id) := by
  intro hm
  obtain ⟨r, hr, rfl⟩ := List.mem_map.mp hm
  obtain ⟨htr, _, hget | hget⟩ := h.each r hr <;> rw [hj] at hget <;> cases hget
  rw [htr] at ht
  cases ht

theorem EndRun.step {s : Store V} {now : Millis} {op : Op V} {c d : Core V} {l : Label V}
    {ended : List (MemJob V)} (h : EndRun s now op c ended) (hs : Step c l d)
    (hl : Allows now op l) (hd : l.drops = []) : EndRun s now op d (ended ++ c.ended l) := by
  have hnew : ∀ r ∈ c.ended l, r.state.isTerminal = true ∧ EndedBy s now op r ∧
      d.jobs.get? r.id = some r ∧ r.id ∉ ended.map (·.id) := by
    intro r hr
    obtain ⟨id, e, now', job, rfl, hj, rfl⟩ := Core.mem_ended hr
    obtain rfl := hl.finish_now
    obtain rfl := h.keyed _ _ hj
    cases hs with
    | @finish _ job' _ _ hj' he =>
      obtain rfl := Option.some.inj (hj.symm.trans hj')
      have ht := he.not_terminal
      obtain ⟨job₀, hj₀, ht₀, hkin⟩ := h.origin ⟨_, _, hl⟩ _ _ hj ht
      have hkin' : Kin job₀ { job with flow := c.settledFlow? job } :=
        ⟨hkin.parent, hkin.exit, hkin.failedReason⟩
      refine ⟨by rw [endJob_state, isTerminal_toJobState],
        ⟨job₀, e, ?_, ht₀, ?_, endJob_state .., hkin'.endJob_eq now' e⟩, ?_, ?_⟩
      · rwa [endJob_id]
      · rwa [endJob_id]
      · rw [endJob_id, finish_get?, if_pos rfl]
      · rw [endJob_id]
        exact h.ended_at hj ht
  have hout := hs.outbox hd
  refine ⟨hs.keyed h.keyed, ?_, ?_, ?_, ?_, ?_, ?_, ?_⟩
  · exact fun id => (h.booked id).step covers_accounts (hs.view h.keyed id) (hl.fans op.fans_all)
  · rw [hout.1, h.outbox, h.outboxSeq, reports_append, List.append_assoc]
  · rw [hout.2, h.outboxSeq, reports_append, List.length_append, Nat.add_assoc]
  · rw [List.map_append, List.nodup_append]
    refine ⟨h.nodup, ?_, ?_⟩
    · cases l with
      | finish id e t =>
        rw [Core.ended]
        split
        · exact List.nodup_singleton _
        · exact List.nodup_nil
      | _ => exact List.nodup_nil
    · rintro a ha b hb rfl
      obtain ⟨r, hr, rfl⟩ := List.mem_map.mp hb
      exact (hnew r hr).2.2.2 ha
  · intro r hr
    rcases List.mem_append.mp hr with hr | hr
    · obtain ⟨ht, hby, hget⟩ := h.each r hr
      refine ⟨ht, hby, ?_⟩
      obtain ⟨_, e, _, _, hallow, _⟩ := hby
      have hmild := hallow.mild hl
      have hview := hs.view h.keyed r.id
      rcases hget with hget | hget
      · -- the flow bookkeeping excludes a late report, the operation excludes a retry
        rcases hview.terminal (h.booked r.id) hget ht with hk | ⟨hk, _⟩ | ⟨_, t, seq, rfl⟩
        · exact .inl hk
        · exact .inr hk
        · exact hmild.elim
      · exact .inr (hview.absent hmild.not_inserts hget)
    · obtain ⟨ht, hby, hget, _⟩ := hnew r hr
      exact ⟨ht, hby, .inl hget⟩
  · intro id job hj ht hop hid
    rw [List.map_append, List.mem_append, not_or] at hid
    obtain ⟨job', hj', ht', hkin⟩ := h.live id job hj ht hop hid.1
    obtain ⟨job'', hj'', ht'', hkin'⟩ := (hs.view h.keyed id).live hj' ht' (by
      rintro e t rfl
      apply hid.2
      rw [Core.ended, hj']
      simp [h.keyed _ _ hj']) (by
      rintro rfl
      cases hl
      exact hop rfl)
    exact ⟨job'', hj'', ht'', hkin.trans hkin'⟩
  · rintro ⟨i, e, hallow⟩ id job' hj ht
    obtain ⟨job, hj', ht', hkin⟩ := (hs.view h.keyed id).origin (hallow.mild hl) hj ht
    obtain ⟨job₀, hj₀, ht₀, hkin₀⟩ := h.origin ⟨i, e, hallow⟩ id job hj' ht'
    exact ⟨job₀, hj₀, ht₀, hkin₀.trans hkin⟩

theorem EndRun.start {s : Store V} (h : FlowInv Covers s) (now : Millis) (op : Op V) :
    EndRun s now op s.toCore [] where
  keyed := h.keyed
  booked := h.booked
  outbox := by simp [reports]
  outboxSeq := by simp [reports]
  nodup := List.nodup_nil
  each := by simp
  live := fun id job hj ht _ _ => ⟨job, hj, ht, .refl job⟩
  origin := fun _ id job hj ht => ⟨job, hj, ht, .refl job⟩

theorem EndRun.run {s : Store V} {now : Millis} {op : Op V} {c d : Core V} {ls : List (Label V)}
    (hr : Run Step c ls d) (hl : ∀ l ∈ ls, Allows now op l ∧ l.drops = [])
    {ended : List (MemJob V)} (h : EndRun s now op c ended) : ∃ ended', EndRun s now op d ended' := by
  induction hr generalizing ended with
  | refl => exact ⟨ended, h⟩
  | cons hs _ ih =>
    obtain ⟨hallow, hdrop⟩ := hl _ List.mem_cons_self
    exact ih (fun l hm => hl l (by simp [hm])) (h.step hs hallow hdrop)

/-- The ids an operation deletes from the outbox. -/
def Op.dropped : Op V → List ℕ
  | .deleteOutbox ids => ids
  | _ => []

theorem Allows.drops {now : Millis} {op : Op V} {l : Label V} (h : Allows now op l)
    (hop : ∀ ids, op ≠ .deleteOutbox ids) : l.drops = [] := by
  cases h with
  | deleteOutbox ids => exact absurd rfl (hop ids)
  | _ => rfl

/-- The jobs an operation ends and the entries it appends for them. -/
theorem exec_outbox {s : Store V} (hinv : FlowInv Covers s) (now : Millis) (op : Op V) :
    ∃ ended : List (MemJob V),
      (exec s now op).outbox =
        (s.outbox.filter fun entry => decide (entry.id ∉ op.dropped)) ++ reports s.outboxSeq ended ∧
      (exec s now op).outboxSeq = s.outboxSeq + (reports s.outboxSeq ended).length ∧
      (ended.map (·.id)).Nodup ∧
      (∀ r ∈ ended, r.state.isTerminal = true ∧ EndedBy s now op r ∧
        ((exec s now op).jobs.get? r.id = some r ∨ (exec s now op).jobs.get? r.id = none)) ∧
      (∀ id job, s.jobs.get? id = some job → job.state.isTerminal = false → op ≠ .remove id →
        (∀ job', (exec s now op).jobs.get? id = some job' → job'.state.isTerminal = true) →
        id ∈ ended.map (·.id)) := by
  by_cases hop : ∃ ids, op = .deleteOutbox ids
  · obtain ⟨ids, rfl⟩ := hop
    refine ⟨[], (List.append_nil _).symm, rfl, List.nodup_nil, by simp, ?_⟩
    intro id job hj ht _ hafter
    have ht' := hafter job hj
    rw [ht] at ht'
    cases ht'
  · rw [not_exists] at hop
    obtain ⟨ls, hr, hl⟩ := exec_does hinv.keyed now op
    obtain ⟨ended, hend⟩ := EndRun.run hr (fun l hm => ⟨hl l hm, (hl l hm).drops hop⟩)
      (.start hinv now op)
    have hdropped : op.dropped = [] := by
      cases op with
      | deleteOutbox ids => exact absurd rfl (hop ids)
      | _ => rfl
    refine ⟨ended, ?_, hend.outboxSeq, hend.nodup, hend.each, ?_⟩
    · rw [hdropped, hend.outbox]
      simp
    · intro id job hj ht hrem hafter
      by_contra hid
      obtain ⟨job', hj', ht', _⟩ := hend.live id job hj ht hrem hid
      rw [hafter job' hj'] at ht'
      cases ht'

/-- Every operation of a reachable store appends the reports of exactly the jobs it moves from a live
into a terminal state, each as it is right after the transition, and deletes the named entries. -/
theorem outbox_exactly_once {s : Store V} (h : Reachable Initial Next s) (now : Millis) (op : Op V) :
    ∃ ended : List (MemJob V),
      (exec s now op).outbox =
        (s.outbox.filter fun entry => decide (entry.id ∉ op.dropped)) ++ reports s.outboxSeq ended ∧
      (ended.map (·.id)).Nodup ∧
      (∀ r ∈ ended, r.state.isTerminal = true ∧ EndedBy s now op r ∧
        ((exec s now op).jobs.get? r.id = some r ∨ (exec s now op).jobs.get? r.id = none)) ∧
      (∀ id job, s.jobs.get? id = some job → job.state.isTerminal = false → op ≠ .remove id →
        (∀ job', (exec s now op).jobs.get? id = some job' → job'.state.isTerminal = true) →
        id ∈ ended.map (·.id)) := by
  obtain ⟨ended, hout, _, hnodup, heach, hall⟩ := exec_outbox (reachable_recordInv h).flow now op
  exact ⟨ended, hout, hnodup, heach, hall⟩

/-! ## Envelopes -/

/-- A record has the envelope it was enqueued with. -/
theorem ViewStep.parent {id : JobId} {l : Label V} {v v' : View V} (h : ViewStep id l v v')
    {job' : MemJob V} (hj : v'.job = some job') :
    (∃ job, v.job = some job ∧ job'.parent = job.parent) ∨
      ∃ request now seq, l = .insert id request now seq ∧ job' = newJob id request now seq := by
  cases h with
  | same | rearm | cascade => exact .inl ⟨job', hj, rfl⟩
  | insert request now seq =>
    cases hj
    exact .inr ⟨request, now, seq, rfl, rfl⟩
  | promote | fanOut | refan =>
    cases hj
    exact .inl ⟨_, rfl, rfl⟩
  | move m =>
    cases hj
    exact .inl ⟨_, rfl, Move.apply_parent ..⟩
  | finish | settle =>
    cases hj
    exact .inl ⟨_, rfl, endJob_parent ..⟩
  | report =>
    obtain ⟨job, hj', rfl⟩ := Option.map_eq_some_iff.mp hj
    exact .inl ⟨job, hj', rfl⟩
  | remove | prune => cases hj

theorem exec_parent {s : Store V} (hk : s.toCore.Keyed) (now : Millis) (op : Op V) {id : JobId}
    {job job' : MemJob V} (hj : s.jobs.get? id = some job)
    (hj' : (exec s now op).jobs.get? id = some job') : job'.parent = job.parent := by
  let I : View V → Prop := fun v => ∀ j, v.job = some j → j.parent = job.parent
  have hI : I ((exec s now op).toCore.view id) := by
    refine exec_view_of_job hk now op hj (I := I) ?_ fun j h => by cases hj.symm.trans h; rfl
    intro l v v' hl hins hstep hv j' hj'
    rcases hstep.parent hj' with ⟨j, hj, hp⟩ | ⟨request, t, seq, rfl, _⟩
    · exact hp.trans (hv j hj)
    · cases hstep with
      | same => exact hv j' hj'
      | insert => exact absurd trivial (hins rfl)
  exact hI job' hj'

/-- A job after an operation has the envelope of the job before, or of what the operation inserts. -/
theorem exec_envelope {s : Store V} (hk : s.toCore.Keyed) (now : Millis) (op : Op V) {id : JobId}
    {job' : MemJob V} (hj' : (exec s now op).jobs.get? id = some job') :
    (∃ job, s.jobs.get? id = some job ∧ job'.parent = job.parent) ∨
      ∃ request t seq, Allows now op (.insert id request t seq) ∧ job'.parent = request.parent := by
  let I : View V → Prop := fun v => ∀ j, v.job = some j →
    (∃ job, s.jobs.get? id = some job ∧ j.parent = job.parent) ∨
      ∃ request t seq, Allows now op (.insert id request t seq) ∧ j.parent = request.parent
  have hI : I ((exec s now op).toCore.view id) := by
    refine (exec_does hk now op).view hk id (I := I) ?_ fun j hj => .inl ⟨j, hj, rfl⟩
    intro l v v' hl hstep _ hv j' hj'
    rcases hstep.parent hj' with ⟨j, hj, hp⟩ | ⟨request, t, seq, rfl, rfl⟩
    · rw [hp]
      exact hv j hj
    · exact .inr ⟨request, t, seq, hl, rfl⟩
  exact hI job' hj'

/-- An enqueue gives a fresh id to a live job with the request's envelope. -/
theorem enqueue_fresh {s : Store V} (hk : s.toCore.Keyed) (now : Millis)
    (request : EnqueueRequest V) (ids : IdSource) {id : JobId} {job' : MemJob V}
    (hj : s.jobs.get? id = none)
    (hj' : (exec s now (.enqueue request ids)).jobs.get? id = some job') :
    job'.parent = request.parent ∧ job'.state.isTerminal = false := by
  let I : View V → Prop := fun v => ∀ j, v.job = some j →
    j.parent = request.parent ∧ j.state.isTerminal = false
  have hI : I ((exec s now (.enqueue request ids)).toCore.view id) := by
    refine (exec_does hk now _).view hk id (I := I) ?_ fun j h => by cases hj.symm.trans h
    intro l v v' hl hstep _ hv j hjob
    cases hl with
    | enqueue =>
      cases hstep with
      | same => exact hv j hjob
      | insert =>
        cases hjob
        refine ⟨rfl, ?_⟩
        simp only [newJob]
        split <;> rfl
    | replace =>
      cases hstep with
      | same => exact hv j hjob
      | @move job =>
        cases hjob
        exact hv job rfl
  exact hI job' hj'

/-- An enqueue deletes no job. -/
theorem enqueue_keeps {s : Store V} (hk : s.toCore.Keyed) (now : Millis)
    (request : EnqueueRequest V) (ids : IdSource) {id : JobId} (hj : (s.jobs.get? id).isSome) :
    ((exec s now (.enqueue request ids)).jobs.get? id).isSome := by
  refine (exec_does hk now (.enqueue request ids)).view hk id (I := fun v => v.job.isSome) ?_ hj
  intro l v v' hl hstep _ hv
  cases hl with
  | enqueue | replace =>
    cases hstep with
    | same => exact hv
    | _ => rfl

/-- A child whose retention policy drops it the moment it completes. -/
def droppedChild : List (Millis × Op Unit) :=
  [(0, .enqueue { EnqueueRequest.plain "c" "child" "q" () with
      keep := some { completed := some ⟨some 0, none⟩ }
      parent := some ⟨"flow", "p", "a", "parents", 1⟩ } .counter),
    (1, .claim ⟨"q", ["child"], "t", 30⟩)]

theorem outbox_exactly_once_droppedChild :
    ∃ ended : List (MemJob Unit),
      (exec (execs Store.empty droppedChild) 2 (.ack "c" "t" (.complete (some ())))).outbox =
        reports 0 ended ∧ "c" ∈ ended.map (·.id) := by
  obtain ⟨ended, hout, _, _, hall⟩ := outbox_exactly_once (reachable_next droppedChild) 2
    (.ack "c" "t" (.complete (some ())))
  have hgone : (exec (execs Store.empty droppedChild) 2
      (.ack "c" "t" (.complete (some ())))).jobs.get? "c" = none := by decide
  refine ⟨ended, hout, hall "c" _ rfl rfl (by simp) fun job' hj' => ?_⟩
  rw [hgone] at hj'
  cases hj'

end EffectMq.Memory
