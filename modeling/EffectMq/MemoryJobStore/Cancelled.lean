import EffectMq.MemoryJobStore.Settle
import EffectMq.MemoryJobStore.Sweep

/-! # Cancelled rows and stopped jobs

Where a cancelled dependency row comes from (`exec_cascaded`, `exec_parked_row`), and what becomes of
a job that is `Stopped`: absent, terminal, or active with its cancel requested. No operation but a
retry or a fresh enqueue of its id sets it going again (`exec_stopped`), and `cancel` stops any job.
-/

namespace EffectMq.Memory
set_option autoImplicit false
set_option maxHeartbeats 250000

open Transition

variable {V : Type}

/-! ## Cancelled rows -/

def Op.reports : Op V → List (FlowChildReport V)
  | .recordChildResults reports => reports
  | _ => []

theorem Allows.report_mem {now : Millis} {op : Op V} {report : FlowChildReport V}
    (h : Allows now op (.report report)) : report ∈ op.reports := by
  cases h
  assumption

def Op.Reports (op : Op V) (id : JobId) (childKey : String) (outcome : TerminalState) : Prop :=
  ∃ report ∈ op.reports, report.flowId = id ∧ report.childKey = childKey ∧ report.outcome = outcome

theorem toChildStatus_cancelled {outcome : TerminalState}
    (h : outcome.toChildStatus = .cancelled) : outcome = .cancelled := by
  cases outcome <;> first | rfl | cases h

/-- A cancelled row that owes no cascade was one before, or has just been reported or marked. -/
theorem exec_cascaded {s : Store V} (hk : s.toCore.Keyed) (now : Millis) (op : Op V) {id : JobId}
    {childKey : String} {row' : MemFlowChild V} (hrow' : (exec s now op).row? id childKey = some row')
    (hs : row'.status = .cancelled) (hc : row'.cascaded = true) :
    (∃ row, s.row? id childKey = some row ∧ row.status = .cancelled ∧ row.cascaded = true) ∨
      op.Reports id childKey .cancelled ∨
      ∃ keys, op = .markChildrenCascaded id keys ∧ childKey ∈ keys := by
  let I : View V → Prop := fun v => ∀ row, v.row? childKey = some row → row.status = .cancelled →
    row.cascaded = true →
    (∃ row, s.row? id childKey = some row ∧ row.status = .cancelled ∧ row.cascaded = true) ∨
      op.Reports id childKey .cancelled ∨
      ∃ keys, op = .markChildrenCascaded id keys ∧ childKey ∈ keys
  have hI : I ((exec s now op).toCore.view id) := by
    refine (exec_does hk now op).view hk id (I := I) ?_
      fun row hrow hs hc => .inl ⟨row, hrow, hs, hc⟩
    intro l v v' hl hview _ hv row' hrow' hs hc
    rcases hview.row hrow' with ⟨row, hrow, hstep⟩ | ⟨row, _, hp, rfl, _⟩ | ⟨_, _, hfresh⟩
    · cases hstep with
      | same | rearm => exact hv _ hrow hs hc
      | report report hid hkey =>
        exact .inr (.inl ⟨report, hl.report_mem, hid, hkey, toChildStatus_cancelled hs⟩)
      | cascade =>
        cases hl
        exact .inr (.inr ⟨_, rfl, ‹_›⟩)
    · rw [markRow, if_pos hp] at hc
      cases hc
    · rw [hfresh] at hc
      cases hc
  exact hI row' hrow' hs hc

/-- A parked parent was parked before, or has just fanned out. -/
theorem exec_parked {s : Store V} (h : FlowInv Covers s) (now : Millis) (op : Op V) {id : JobId}
    (hp : ¬ ((exec s now op).toCore.view id).NotParked) :
    ¬ (s.toCore.view id).NotParked ∨
      ∃ rows, ((exec s now op).toCore.view id).rows = some rows ∧
        ∀ childKey row, rows.get? childKey = some row → row.status = .pending := by
  by_cases hop : ∃ token failFast children, op = .ack id token (.fanOut failFast children)
  · obtain ⟨token, failFast, children, rfl⟩ := hop
    cases hres : (ack s now id token (.fanOut failFast children)).1 with
    | error e =>
      rw [exec, ack_error hres] at hp
      exact .inl hp
    | ok u =>
      obtain ⟨job, hj, ha, _, heq⟩ := ack_ok hres
      have heq : exec s now (.ack id token (.fanOut failFast children)) =
          ackFanOut s now (clearLock job) failFast children := heq
      obtain rfl := h.keyed _ _ hj
      rw [heq] at hp ⊢
      have hpark : Step s.toCore (.park job.id failFast children now)
          (s.toCore.park job failFast children now) := .park failFast children now hj ha
      have hk := hpark.keyed h.keyed
      rcases ackFanOut_cases h.keyed now failFast children hj ha with ⟨_, hfin⟩ | ⟨_, seq, hmove⟩ |
        ⟨_, hpos, hpark⟩
      · exact absurd (hfin.notParked hk) hp
      · exact absurd (resume_notParked hk hmove) hp
      · cases hf : job.flow with
        | some flow =>
          -- a parent that is not parked waits for no child, so it is not parked again
          have hw : job.state ≠ .waitingChildren := by
            rw [ha]
            decide
          rw [manifest, hf, Option.getD_some, (h.booked job.id).not_pending hj hf hw] at hpos
          cases hpos
        | none =>
          refine .inr ⟨newRows job.id now children, ?_, fun childKey row hrow => ?_⟩
          · rw [hpark, Core.view, Core.park, putJob_flowChildren, Core.fanOutRows, hf]
            simp
          · obtain ⟨child, _, _, rfl⟩ := newRows_pending hrow
            rfl
  · refine .inl fun hn => hp (exec_notParked h.keyed now op (fun token failFast children heq => ?_) hn)
    exact hop ⟨token, failFast, children, heq⟩

/-- A cancelled row of a parked parent was one before, or has just been reported. -/
theorem exec_parked_row {s : Store V} (h : FlowInv Covers s) (now : Millis) (op : Op V)
    {id : JobId} {childKey : String} {row' : MemFlowChild V}
    (hp : ¬ ((exec s now op).toCore.view id).NotParked)
    (hrow' : (exec s now op).row? id childKey = some row') (hs : row'.status = .cancelled) :
    (¬ (s.toCore.view id).NotParked ∧
      ∃ row, s.row? id childKey = some row ∧ row.status = .cancelled) ∨
      op.Reports id childKey .cancelled := by
  rcases exec_parked h now op hp with hbefore | ⟨rows, hr, hall⟩
  · let I : View V → Prop := fun v => v.NotParked ∨ ∀ row, v.row? childKey = some row →
      row.status = .cancelled → (∃ row, s.row? id childKey = some row ∧ row.status = .cancelled) ∨
        op.Reports id childKey .cancelled
    by_cases hop : ∃ token failFast children, op = .ack id token (.fanOut failFast children)
    · obtain ⟨token, failFast, children, rfl⟩ := hop
      -- the store refuses to ack a parked parent
      have hsame : exec s now (.ack id token (.fanOut failFast children)) = s := by
        cases hres : (ack s now id token (.fanOut failFast children)).1 with
        | error e => exact ack_error hres
        | ok u =>
          obtain ⟨job, hj, ha, _⟩ := ack_ok hres
          refine absurd (fun j hj' hw => ?_) hbefore
          cases hj.symm.trans hj'
          cases ha.symm.trans hw
      rw [hsame] at hrow'
      exact .inl ⟨hbefore, row', hrow', hs⟩
    · have hI : I ((exec s now op).toCore.view id) := by
        refine (exec_does h.keyed now op).view h.keyed id (I := I) ?_
          (.inr fun row hrow hs => .inl ⟨row, hrow, hs⟩)
        intro l v v' hl hview _ hv
        have hpark : ∀ failFast children now, l ≠ .park id failFast children now := by
          rintro failFast children t rfl
          cases hl
          exact hop ⟨_, _, _, rfl⟩
        rcases hv with hv | hv
        · exact .inl (hv.step hview hpark)
        · by_cases hn : v'.NotParked
          · exact .inl hn
          · refine .inr fun row' hrow' hs => ?_
            rcases hview.row hrow' with ⟨row, hrow, hstep⟩ | ⟨_, _, _, _, job, hj, ht⟩ |
              ⟨⟨_, _, _, _, rfl, _⟩, _⟩
            · cases hstep with
              | same | rearm | cascade => exact hv _ hrow hs
              | report report hid hkey =>
                exact .inr ⟨report, hl.report_mem, hid, hkey, toChildStatus_cancelled hs⟩
            · refine absurd (fun j hj' hw => ?_) hn
              cases hj.symm.trans hj'
              rw [hw] at ht
              cases ht
            · exact absurd rfl (hpark _ _ _)
      rcases hI with hn | hrows
      · exact absurd hn hp
      · exact (hrows row' hrow' hs).imp_left fun hrow => ⟨hbefore, hrow⟩
  · obtain ⟨rows', hr', hget⟩ := Option.bind_eq_some_iff.mp hrow'
    cases hr.symm.trans hr'
    cases hs.symm.trans (hall childKey row' hget)

section Ledger

variable {ok : JobId → List (FlowChildSpec V) → Prop} {s : Ledger V}

theorem LedgerInv.row_spec (h : LedgerInv ok s) {id : JobId} {childKey : String}
    {row : MemFlowChild V} (hrow : s.store.row? id childKey = some row) :
    ∃ children, s.manifests.get? id = some children ∧ specOf row ∈ children := by
  obtain ⟨children, hm, hmem⟩ := row?_spec hrow
  rcases h.persisted id with hj | heq
  · rw [manifest?_of_absent h.flow hj] at hm
    cases hm
  · exact ⟨children, heq.symm.trans hm, hmem⟩

/-- The rows of a flow that has fanned out are the rows it had. -/
theorem LedgerInv.row_exec (h : LedgerInv ok s) {now : Millis} {op : Op V}
    (h' : LedgerInv ok (s.exec now op)) (hr : ¬ s.Reuses (s.exec now op))
    (hk : s.store.toCore.RowsKeyed) {id : JobId} (hl : Landed s id) {childKey : String}
    {row' : MemFlowChild V} (hrow' : (s.exec now op).store.row? id childKey = some row') :
    ∃ row, s.store.row? id childKey = some row ∧ specOf row = specOf row' := by
  have hk' := exec_rowsKeyed h.flow.keyed now op hk
  obtain ⟨children, hm⟩ := Option.isSome_iff_exists.mp hl
  obtain ⟨children', hm', hmem⟩ := h'.row_spec hrow'
  rw [h.manifests_exec now op hm] at hm'
  cases hm'
  rcases h.persisted id with hj | heq
  · obtain ⟨_, hm', _⟩ := row?_spec hrow'
    rw [manifest?_of_absent h'.flow (not_reuses hr hl hj)] at hm'
    cases hm'
  · obtain ⟨row, hrow, hspec⟩ := spec_row? hk (heq.trans hm) hmem
    have hkey : (specOf row').childKey = childKey := (hk'.row? hrow').2
    rw [hkey] at hrow
    exact ⟨row, hrow, hspec⟩

/-- A settled row of such a flow keeps its status. -/
theorem LedgerInv.settled_exec (h : LedgerInv ok s) {now : Millis} {op : Op V}
    (h' : FlowInv Covers (s.exec now op).store) (hr : ¬ s.Reuses (s.exec now op)) {id : JobId}
    (hl : Landed s id) {childKey : String} {status : ChildStatus} (hp : status ≠ .pending)
    (hrow : ∀ row, s.store.row? id childKey = some row → row.status = status)
    {row' : MemFlowChild V} (hrow' : (s.exec now op).store.row? id childKey = some row') :
    row'.status = status := by
  rcases h.persisted id with hj | heq
  · obtain ⟨_, hm', _⟩ := row?_spec hrow'
    rw [manifest?_of_absent h' (not_reuses hr hl hj)] at hm'
    cases hm'
  · rw [Landed, ← heq] at hl
    exact exec_settled h.flow now op hl hp hrow hrow'

end Ledger

/-! ## Stopped jobs -/

def View.Stopped (v : View V) : Prop :=
  ∀ job, v.job = some job →
    job.state.isTerminal = true ∨ job.state = .active ∧ job.cancelRequested = true

/-- Absent, terminal, or active with its cancel requested. -/
def Stopped (s : Store V) (id : JobId) : Prop := (s.toCore.view id).Stopped

theorem View.Stopped.step {id : JobId} {l : Label V} {v v' : View V} (h : ViewStep id l v v')
    (hins : v.job = none → ¬ l.Inserts) (hretry : ∀ now seq, l ≠ .move id (.retry now seq))
    (hpark : ∀ failFast children now, l ≠ .park id failFast children now) (hv : v.Stopped) :
    v'.Stopped := by
  intro job' hj
  have hstate : ∀ {job : MemJob V} {st : JobState}, job.state.isTerminal = true ∨
      job.state = .active ∧ job.cancelRequested = true → job.state = st → st.isTerminal = false →
      st = .active ∧ job.cancelRequested = true := by
    rintro job st (ht | ⟨ha, hc⟩) rfl hst
    · cases ht.symm.trans hst
    · exact ⟨ha, hc⟩
  cases h with
  | same | rearm | cascade => exact hv job' hj
  | insert => exact absurd trivial (hins rfl)
  | promote _ _ hd => cases (hstate (hv _ rfl) hd rfl).1
  | @move job m _ hm =>
    cases hj
    have hs := hv job rfl
    cases m with
    | replace | promoteNow | claim => cases (hstate hs hm rfl).1
    | resume => cases (hstate hs hm.1 rfl).1
    | extend | requeue | release | stall => cases hm.2.symm.trans (hstate hs hm.1 rfl).2
    | requestCancel => exact .inr ⟨hm, rfl⟩
    | retry => exact absurd rfl (hretry _ _)
  | finish | settle =>
    cases hj
    rw [endJob_state, isTerminal_toJobState]
    exact .inl rfl
  | fanOut | refan => exact absurd rfl (hpark _ _ _)
  | report =>
    obtain ⟨job, hj', rfl⟩ := Option.map_eq_some_iff.mp hj
    exact hv job hj'
  | remove | prune => cases hj

theorem Core.Finishes.stopped {c d : Core V} {id : JobId} {e : Ending V} {now : Millis}
    (h : c.Finishes id e now d) (hk : c.Keyed) : (d.view id).Stopped := by
  refine h.view hk (fun _ hj => by cases hj) fun job flow rows? _ _ j hj => ?_
  cases hj
  rw [endJob_state, isTerminal_toJobState]
  exact .inl rfl

/-- Nothing but a retry or a fresh enqueue sets a stopped job going. -/
theorem exec_stopped {s : Store V} (hk : s.toCore.Keyed) (now : Millis) (op : Op V) {id : JobId}
    (hs : Stopped s id) (hop : op ≠ .retry id)
    (hins : s.jobs.get? id = none → (exec s now op).jobs.get? id = none) :
    Stopped (exec s now op) id := by
  cases hj : s.jobs.get? id with
  | none =>
    intro job' hj'
    cases (hins hj).symm.trans hj'
  | some job =>
    by_cases hpark : ∃ token failFast children, op = .ack id token (.fanOut failFast children)
    · obtain ⟨token, failFast, children, rfl⟩ := hpark
      cases hres : (ack s now id token (.fanOut failFast children)).1 with
      | error e =>
        rw [exec, ack_error hres]
        exact hs
      | ok u =>
        obtain ⟨job', hj', ha, _, heq⟩ := ack_ok hres
        have heq : exec s now (.ack id token (.fanOut failFast children)) =
            ackFanOut s now (clearLock job') failFast children := heq
        cases hj.symm.trans hj'
        obtain rfl := hk _ _ hj
        have hcancel : job.cancelRequested = true := by
          rcases hs job hj with ht | ⟨_, hc⟩
          · rw [ha] at ht
            cases ht
          · exact hc
        have hpark : Step s.toCore (.park job.id failFast children now)
            (s.toCore.park job failFast children now) := .park failFast children now hj ha
        have hk' := hpark.keyed hk
        rw [Stopped, heq]
        rcases ackFanOut_cases hk now failFast children hj ha with ⟨_, hfin⟩ | ⟨hno, _⟩ | ⟨hno, _⟩
        · exact hfin.stopped hk'
        · cases hcancel.symm.trans hno
        · cases hcancel.symm.trans hno
    · refine exec_view_of_job hk now op hj (I := View.Stopped) ?_ hs
      refine fun l v v' hl hnew hstep hv => hv.step hstep hnew ?_ ?_
      · rintro t seq rfl
        cases hl
        exact hop rfl
      · rintro failFast children t rfl
        cases hl
        exact hpark ⟨_, _, _, rfl⟩

/-- A cancel stops any job. -/
theorem cancelJob_stopped {s : Store V} (hk : s.toCore.Keyed) (now : Millis) (id : JobId) :
    Stopped (exec s now (.cancel id)) id := by
  rw [exec, cancelJob]
  split
  · rename_i hj
    intro job hj'
    cases hj.symm.trans hj'
  · rename_i job hj
    obtain rfl := hk _ _ hj
    have hlive : job.state.isTerminal = false → Stopped (markCancelled s job now) job.id :=
      fun ht => (markCancelled_finishes hk now hj ht).stopped hk
    cases hst : job.state with
    | waiting | delayed | waitingChildren => exact hlive (by rw [hst]; rfl)
    | active =>
      intro j hj'
      simp only [Store.putJob, putJob_view, if_pos] at hj'
      cases hj'
      exact .inr ⟨rfl, rfl⟩
    | completed | failed | cancelled =>
      intro j hj'
      cases hj.symm.trans hj'
      rw [hst]
      exact .inl rfl

/-- An operation without insertions gives no unknown id a record. -/
theorem exec_absent {s : Store V} (hk : s.toCore.Keyed) (now : Millis) (op : Op V) {id : JobId}
    (hop : ∀ l, Allows now op l → ¬ l.Inserts) (hj : s.jobs.get? id = none) :
    (exec s now op).jobs.get? id = none :=
  (exec_does hk now op).view hk id (I := fun v => v.job = none)
    (fun l _ _ hl hstep _ hv => hstep.absent (hop l hl) hv) hj

theorem cancel_not_inserts {now : Millis} {id : JobId} {l : Label V}
    (h : Allows now (.cancel id) l) : ¬ l.Inserts := by
  cases h <;> exact fun h => h

/-- An enqueue inserts no other id than the one its request carries. -/
theorem enqueue_absent {s : Store V} (hk : s.toCore.Keyed) (now : Millis)
    {request : EnqueueRequest V} (ids : IdSource) {i id : JobId} (hi : request.id = some i)
    (hne : id ≠ i) (hj : s.jobs.get? id = none) :
    (exec s now (.enqueue request ids)).jobs.get? id = none := by
  refine (exec_does hk now (.enqueue request ids)).view hk id (I := fun v => v.job = none) ?_ hj
  intro l v v' hl hstep _ hv
  cases hl with
  | enqueue seq h =>
    cases hstep with
    | same => exact hv
    | insert => exact absurd (h i hi).symm hne
  | replace =>
    cases hstep with
    | same => exact hv
    | move => cases hv

/-! ## A requested cancel is honoured -/

/-- Active with its cancel requested. -/
def View.Cancelling (v : View V) : Prop :=
  ∃ job, v.job = some job ∧ job.state = .active ∧ job.cancelRequested = true

def Cancelling (s : Store V) (id : JobId) : Prop := (s.toCore.view id).Cancelling

def View.Ended (v : View V) (outcome : TerminalState) : Prop :=
  ∃ job, v.job = some job ∧ job.state = outcome.toJobState

/-- The outcome in which an operation ends a job whose cancel was requested. -/
def Op.outcome : Op V → TerminalState
  | .ack _ _ (.complete _) => .completed
  | .ack _ _ (.fail _) => .failed
  | _ => .cancelled

/-- The operation takes the job to `outcome`, and its retention may drop the record at once. No
dependency row is left pending. -/
structure Ends (s : Store V) (now : Millis) (op : Op V) (id : JobId) (outcome : TerminalState) :
    Prop where
  reached : ∃ d, Does (Allows now op) s.toCore d ∧ Does (Allows now op) d (exec s now op).toCore ∧
    (d.view id).Ended outcome
  left : ∀ job, (exec s now op).jobs.get? id = some job → job.state = outcome.toJobState
  settled : ∀ childKey row, (exec s now op).row? id childKey = some row → row.status ≠ .pending

theorem Allows.outcome {now t : Millis} {op : Op V} {id : JobId} {e : Ending V} {job : MemJob V}
    (h : Allows now op (.finish id e t)) (he : e.Enabled job) (ha : job.state = .active)
    (hc : job.cancelRequested = true) : e.outcome = op.outcome := by
  cases h with
  | ackFinish hends => cases hends <;> rfl
  | stallFail => cases hc.symm.trans he.2
  | failFast => cases ha.symm.trans he
  | _ => rfl

theorem View.Cancelling.step {now : Millis} {op : Op V} {id : JobId} {l : Label V} {v v' : View V}
    (h : ViewStep id l v v') (hl : Allows now op l)
    (hpark : ∀ failFast children t, l ≠ .park id failFast children t) (hv : v.Cancelling) :
    v'.Cancelling ∨ v'.Ended op.outcome := by
  obtain ⟨job, hj, ha, hc⟩ := hv
  cases h with
  | same | rearm | cascade => exact .inl ⟨job, hj, ha, hc⟩
  | insert => cases hj
  | promote _ _ hd =>
    cases hj
    cases ha.symm.trans hd
  | @move _ m _ hm =>
    cases hj
    cases m with
    | replace | promoteNow | claim | retry => cases ha.symm.trans hm
    | resume => cases ha.symm.trans hm.1
    | extend | requeue | release | stall => cases hc.symm.trans hm.2
    | requestCancel => exact .inl ⟨_, rfl, ha, rfl⟩
  | finish e _ _ he =>
    cases hj
    refine .inr ⟨_, rfl, ?_⟩
    rw [endJob_state, hl.outcome he ha hc]
  | settle _ _ _ _ hw =>
    cases hj
    cases ha.symm.trans hw
  | fanOut | refan => exact absurd rfl (hpark _ _ _)
  | @report _ _ _ report =>
    exact .inl ⟨_, congrArg (Option.map (countReport report)) hj, ha, hc⟩
  | remove _ hna =>
    cases hj
    exact absurd ha hna
  | prune _ ht =>
    have ht := ht job hj
    rw [ha] at ht
    cases ht

/-- A terminal record is revived by a retry only. -/
theorem View.Ended.step {id : JobId} {l : Label V} {v v' : View V} {outcome : TerminalState}
    (h : ViewStep id l v v') (hb : Booked Covers v)
    (hretry : outcome = .failed → ∀ now seq, l ≠ .move id (.retry now seq))
    (hv : v.Ended outcome) : v'.job = none ∨ v'.Ended outcome := by
  obtain ⟨job, hj, hst⟩ := hv
  have ht : job.state.isTerminal = true := by rw [hst, isTerminal_toJobState]
  rcases h.terminal hb hj ht with hj' | ⟨hj', _⟩ | ⟨hf, t, seq, hl⟩
  · exact .inr ⟨job, hj', hst⟩
  · exact .inl hj'
  · rw [hst] at hf
    have hout : outcome = .failed := by cases outcome <;> first | rfl | cases hf
    exact absurd hl (hretry hout t seq)

theorem Ends.of_reached {s : Store V} (h : FlowInv Covers s) {now : Millis} {op : Op V} {id : JobId}
    {outcome : TerminalState}
    (hreached : ∃ d, Does (Allows now op) s.toCore d ∧
      Does (Allows now op) d (exec s now op).toCore ∧ (d.view id).Ended outcome)
    (hleft : (exec s now op).jobs.get? id = none ∨ ((exec s now op).toCore.view id).Ended outcome) :
    Ends s now op id outcome := by
  have hleft : ∀ job, (exec s now op).jobs.get? id = some job → job.state = outcome.toJobState := by
    intro job hj
    rcases hleft with hnone | ⟨_, hj', hst⟩
    · cases hnone.symm.trans hj
    · cases hj.symm.trans hj'
      exact hst
  refine ⟨hreached, hleft, fun childKey row hrow hp => ?_⟩
  obtain ⟨rows, hr, hget⟩ := Option.bind_eq_some_iff.mp hrow
  have hb := (h.exec covers_accounts now op.fans_all).covered id
  rw [Core.view, hr] at hb
  obtain ⟨job, hj, hw⟩ := hb.parked_of_pending hget hp
  rw [hleft job hj] at hw
  cases outcome <;> cases hw

/-- A fan-out acked while a cancel is requested ends its parent. -/
theorem ackFanOut_cancelling {s : Store V} (h : FlowInv Covers s) {now : Millis} {job : MemJob V}
    {token : String} {failFast : Bool} {children : List (FlowChildSpec V)}
    (hj : s.jobs.get? job.id = some job) (ha : job.state = .active)
    (hc : job.cancelRequested = true)
    (heq : exec s now (.ack job.id token (.fanOut failFast children)) =
      ackFanOut s now (clearLock job) failFast children) :
    Ends s now (.ack job.id token (.fanOut failFast children)) job.id .cancelled := by
  have hpark : Step s.toCore (.park job.id failFast children now)
      (s.toCore.park job failFast children now) := .park failFast children now hj ha
  have hk := hpark.keyed h.keyed
  rcases ackFanOut_cases h.keyed now failFast children hj ha with ⟨_, d, hfin, hprunes⟩ | ⟨hno, _⟩ |
    ⟨hno, _⟩
  · have hended : (d.view job.id).Ended .cancelled := by
      cases hfin with
      | @finish _ job' _ _ hj' =>
        have hid := hk _ _ hj'
        rw [finish_view, if_pos hid.symm]
        exact ⟨_, rfl, endJob_state ..⟩
    refine .of_reached h ⟨d, ?_, ?_, hended⟩ ?_
    · exact .trans (.single hpark (.ackPark ..)) (.single hfin (.ackFinish (.fanOut ..)))
    · rw [heq]
      exact hprunes.of_prunes fun _ => .ackPrune ..
    · rw [heq]
      exact prunes_view (hfin.keyed hk) hprunes (I := fun v => v.job = none ∨ v.Ended .cancelled)
        (.inl rfl) (.inr hended)
  · cases hc.symm.trans hno
  · cases hc.symm.trans hno

/-- Until an operation ends it, a job whose cancel was requested stays as it is. -/
theorem exec_cancelling {s : Store V} (h : FlowInv Covers s) (now : Millis) (op : Op V) {id : JobId}
    (hc : Cancelling s id) :
    Cancelling (exec s now op) id ∨ Ends s now op id op.outcome := by
  obtain ⟨job, hj, ha, hcancel⟩ := hc
  by_cases hpark : ∃ token failFast children, op = .ack id token (.fanOut failFast children)
  · obtain ⟨token, failFast, children, rfl⟩ := hpark
    cases hres : (ack s now id token (.fanOut failFast children)).1 with
    | error e =>
      rw [exec, ack_error hres]
      exact .inl ⟨job, hj, ha, hcancel⟩
    | ok u =>
      obtain ⟨job', hj', _, _, heq⟩ := ack_ok hres
      cases hj.symm.trans hj'
      obtain rfl := h.keyed _ _ hj
      exact .inr (ackFanOut_cancelling h hj' ha hcancel heq)
  · have hpark : ∀ {l : Label V}, Allows now op l →
        ∀ failFast children t, l ≠ .park id failFast children t := by
      rintro l hl failFast children t rfl
      cases hl
      exact hpark ⟨_, _, _, rfl⟩
    have hretry : ∀ {l : Label V}, Allows now op l → op.outcome = .failed →
        ∀ t seq, l ≠ .move id (.retry t seq) := by
      rintro l hl hout t seq rfl
      cases hl
      cases hout
    have hpasses := (exec_does h.keyed now op).passes h.keyed id (I := View.Cancelling)
      (E := fun v => v.Ended op.outcome)
      (fun l v v' hl hstep _ hv => hv.step hstep hl (hpark hl)) ⟨job, hj, ha, hcancel⟩
    let I : View V → Prop := fun v =>
      Booked Covers v ∧ (v.Cancelling ∨ v.job = none ∨ v.Ended op.outcome)
    have hI : I ((exec s now op).toCore.view id) := by
      refine exec_view_of_job h.keyed now op hj (I := I) ?_
        ⟨h.covered id, .inl ⟨job, hj, ha, hcancel⟩⟩
      rintro l v v' hl hins hstep ⟨hb, hv⟩
      refine ⟨hb.step covers_accounts hstep (hl.fans op.fans_all), ?_⟩
      rcases hv with hv | hv | hv
      · exact (hv.step hstep hl (hpark hl)).imp_right .inr
      · exact .inr (.inl (hstep.absent (hins hv) hv))
      · exact .inr (hv.step hstep hb (hretry hl))
    rcases hI.2 with hv | hleft
    · exact .inl hv
    · exact hpasses.imp_right fun hreached => .of_reached h hreached hleft

/-- A cancel of this job that the store accepts. -/
inductive Cancels (s : Store V) (now : Millis) (id : JobId) : Op V → Prop
  | byId (h : (cancelJob s now id).1 = .ok ()) : Cancels s now id (.cancel id)
  | byKey {name key : String} {entry : DedupeEntry}
      (he : s.dedupes.get? (dedupeMapKey name key) = some entry) (hid : entry.jobId = id)
      (h : (cancelByDedupe s now name key).1 = true) : Cancels s now id (.cancelByDedupe name key)

theorem Cancels.cancelling {s : Store V} (hk : s.toCore.Keyed) {now : Millis} {op : Op V} {id : JobId}
    (h : Cancels s now id op) {job : MemJob V} (hj : s.jobs.get? id = some job)
    (ha : job.state = .active) : Cancelling (exec s now op) id := by
  have hset : cancelJob s now id = (.ok (), s.putJob { job with cancelRequested := true }) := by
    simp only [cancelJob, hj, ha]
  have hexec : exec s now op = s.putJob { job with cancelRequested := true } := by
    cases h with
    | byId => rw [exec, hset]
    | byKey he hid =>
      subst hid
      simp only [exec, cancelByDedupe, he, hset]
  obtain rfl := hk _ _ hj
  rw [hexec, Cancelling, putJob_toCore, putJob_view, if_pos rfl]
  exact ⟨_, rfl, ha, rfl⟩

/-- After a successful cancel of an active job, the job stays active with the request on it until an
operation ends it: as completed or failed by such an ack of its run, as cancelled by any other
operation, and with no dependency row left pending. -/
theorem cancel_wins {s : Store V} (h : Reachable Initial Next s) {now : Millis} {op : Op V}
    {id : JobId} {job : MemJob V} (hj : s.jobs.get? id = some job) (ha : job.state = .active)
    (hc : Cancels s now id op) (events : List (Millis × Op V)) :
    (∀ es, es <+: events → Cancelling (execs (exec s now op) es) id) ∨
      ∃ es now' op', es ++ [(now', op')] <+: events ∧
        (∀ es', es' <+: es → Cancelling (execs (exec s now op) es') id) ∧
        Ends (execs (exec s now op) es) now' op' id op'.outcome := by
  have hinv := reachable_recordInv h
  exact execs_until (I := FlowInv Covers) (C := fun t => Cancelling t id)
    (E := fun t now op => Ends t now op id op.outcome)
    (fun t now op ht => ht.exec covers_accounts now op.fans_all)
    (fun t now op ht hc => exec_cancelling ht now op hc) (hinv.exec now op).flow
    (hc.cancelling hinv.flow.keyed hj ha) events

/-- A flow parent whose cancel arrives before its fan-out is acked. -/
def racedFanOut : List (Millis × Op Unit) :=
  [(0, .enqueue (.plain "p" "flow" "q" ()) .counter), (1, .claim ⟨"q", ["flow"], "t", 30⟩)]

theorem cancel_wins_racedFanOut :
    Ends (execs (exec (execs Store.empty racedFanOut) 2 (.cancel "p")) []) 3
      (.ack "p" "t" (.fanOut false [⟨"a", "kids", .plain "c" "child" "q" ()⟩])) "p" .cancelled := by
  have hc : Cancels (execs Store.empty racedFanOut) 2 "p" (.cancel "p") := .byId rfl
  have h := cancel_wins (reachable_next racedFanOut) rfl rfl hc
    [(3, .ack "p" "t" (.fanOut false [⟨"a", "kids", .plain "c" "child" "q" ()⟩]))]
  rcases h with hall | ⟨es, now', op', hp, _, hends⟩
  · obtain ⟨job, hj, ha, _⟩ := hall _ (List.prefix_refl _)
    cases hj
    cases ha
  · rcases List.prefix_cons_iff.mp hp with h | ⟨rest, h, hrest⟩
    · exact absurd h (by simp)
    · rw [List.prefix_nil.mp hrest] at h
      obtain ⟨rfl, heq⟩ := List.append_eq_singleton_iff.mp h |>.resolve_right (by simp)
      cases heq
      exact hends

end EffectMq.Memory
