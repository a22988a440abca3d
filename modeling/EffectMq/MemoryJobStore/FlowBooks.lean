import EffectMq.MemoryJobStore.Decompose

/-! # Flow bookkeeping

The counters of a flow parent agree with its dependency rows.

* `Accounts R ok` says that a relation `R` between counters and rows is kept by every way the driver
  updates them, for fan-outs whose children satisfy `ok`. `Covers` needs nothing of the children,
  `Balanced` needs distinct child keys.
* `Booked R` is the invariant at one id. `Booked.step` is its step lemma.
* `Open`, a parked parent still waits for a child, holds between operations and not between the
  elementary steps of a fan-out or of a batch of reports: these two have lemmas of their own.
-/

namespace EffectMq.Memory
set_option autoImplicit false
set_option maxHeartbeats 250000

open Transition

variable {V : Type}

/-! ## Counting rows -/

theorem countStatus_report {rows : Rows V} {report : FlowChildReport V} {row : MemFlowChild V}
    (hrow : rows.get? report.childKey = some row) (hp : row.status = .pending)
    (status : ChildStatus) :
    countStatus (rows.modify report.childKey fun _ => reportRow row report) status +
        (if status = .pending then 1 else 0) =
      countStatus rows status + if status = report.outcome.toChildStatus then 1 else 0 := by
  have h := JsMap.countP_values_modify hrow (fun _ => reportRow row report)
    (fun row => decide (row.status = status))
  simpa [countStatus, reportRow, hp, eq_comm] using h

theorem markRow_status (row : MemFlowChild V) :
    (markRow row).status = if row.status = .pending then .cancelled else row.status := by
  unfold markRow
  split <;> rfl

theorem countStatus_markRow (rows : Rows V) (status : ChildStatus) :
    countStatus (rows.mapValues fun _ => markRow) status =
      if status = .pending then 0
      else countStatus rows status + if status = .cancelled then countStatus rows .pending else 0 := by
  unfold countStatus
  rw [JsMap.countP_mapValues]
  induction rows.values with
  | nil => simp
  | cons row values ih =>
    simp only [List.countP_cons, Function.comp_apply, ih, markRow_status]
    generalize row.status = st
    cases status <;> cases st <;> simp <;> omega

theorem countStatus_modify (rows : Rows V) (childKey : String)
    (f : MemFlowChild V → MemFlowChild V) (hf : ∀ row, (f row).status = row.status)
    (status : ChildStatus) : countStatus (rows.modify childKey f) status = countStatus rows status := by
  unfold countStatus
  rw [JsMap.modify]
  simp only [JsMap.values, JsMap.mapValues, List.map_map, List.countP_map]
  apply List.countP_congr
  intro e _
  by_cases h : e.1 = childKey <;> simp [h, hf]

theorem countStatus_pos {rows : Rows V} {childKey : String} {row : MemFlowChild V}
    {status : ChildStatus} (h : rows.get? childKey = some row) (hs : row.status = status) :
    0 < countStatus rows status :=
  JsMap.countP_values_pos h (by simpa using hs)

theorem countStatus_sum (rows : Rows V) :
    countStatus rows .pending + countStatus rows .completed + countStatus rows .failed +
      countStatus rows .cancelled = rows.size := by
  unfold countStatus
  rw [← JsMap.length_values]
  induction rows.values with
  | nil => rfl
  | cons row values ih =>
    simp only [List.countP_cons, List.length_cons, ← ih]
    cases row.status <;> simp <;> omega

theorem newRows_pending {flowId : JobId} {now : Millis} {children : List (FlowChildSpec V)}
    {childKey : String} {row : MemFlowChild V}
    (h : (newRows flowId now children).get? childKey = some row) :
    ∃ child ∈ children, child.childKey = childKey ∧ row = newRow flowId now child := by
  rcases JsMap.foldl_set_get? _ _ _ _ h with h | ⟨child, hc, hk, hr⟩
  · cases h
  · exact ⟨child, hc, hk, hr.symm⟩

theorem countStatus_newRows (flowId : JobId) (now : Millis) (children : List (FlowChildSpec V))
    (status : ChildStatus) :
    countStatus (newRows flowId now children) status =
      if status = .pending then (newRows flowId now children).size else 0 := by
  have hall : ∀ row ∈ (newRows flowId now children).values, row.status = .pending := by
    intro row hr
    obtain ⟨childKey, hk⟩ := JsMap.mem_values.mp hr
    obtain ⟨child, _, _, rfl⟩ := newRows_pending hk
    rfl
  unfold countStatus
  split
  · rename_i hs
    rw [← JsMap.length_values, List.countP_eq_length]
    intro row hr
    simp [hs, hall row hr]
  · rename_i hs
    rw [List.countP_eq_zero]
    intro row hr
    simp [hall row hr, Ne.symm hs]

theorem size_newRows_le (flowId : JobId) (now : Millis) (children : List (FlowChildSpec V)) :
    (newRows flowId now children).size ≤ children.length := by
  have h := JsMap.size_foldl_set_le (fun child : FlowChildSpec V => child.childKey)
    (newRow flowId now) children ∅
  rwa [JsMap.size_empty, Nat.zero_add] at h

theorem size_newRows {children : List (FlowChildSpec V)}
    (hnd : (children.map (·.childKey)).Nodup) (flowId : JobId) (now : Millis) :
    (newRows flowId now children).size = children.length := by
  have h := JsMap.size_foldl_set (fun child : FlowChildSpec V => child.childKey)
    (newRow flowId now) children ∅ hnd (by simp)
  rwa [JsMap.size_empty, Nat.zero_add] at h

/-! ## Counters that follow the rows -/

/-- A relation between counters and rows that every update of the two keeps. -/
structure Accounts (R : FlowState → Rows V → Prop) (ok : List (FlowChildSpec V) → Prop) : Prop where
  fresh : ∀ (failFast : Bool) (flowId : JobId) (now : Millis) {children : List (FlowChildSpec V)},
    ok children → R ⟨failFast, children.length, 0, 0, 0⟩ (newRows flowId now children)
  report : ∀ {flow : FlowState} {rows : Rows V} {report : FlowChildReport V} {row : MemFlowChild V},
    rows.get? report.childKey = some row → row.status = .pending → R flow rows →
      R (countOutcome flow report.outcome)
        (rows.modify report.childKey fun _ => reportRow row report)
  settle : ∀ {flow : FlowState} {rows : Rows V}, R flow rows →
    R (settledFlow flow (countStatus rows .pending)) (rows.mapValues fun _ => markRow)
  same : ∀ {flow : FlowState} {rows rows' : Rows V},
    (∀ status, countStatus rows' status = countStatus rows status) → R flow rows → R flow rows'

/-- No row is pending that the counter does not know of. -/
def Covers (flow : FlowState) (rows : Rows V) : Prop :=
  countStatus rows .pending ≤ flow.pending

/-- Every counter is the number of rows in its status. -/
structure Balanced (flow : FlowState) (rows : Rows V) : Prop where
  pending : flow.pending = countStatus rows .pending
  completed : flow.completed = countStatus rows .completed
  failed : flow.failed = countStatus rows .failed
  cancelled : flow.cancelled = countStatus rows .cancelled

/-- `Flow.buildSpecs` refuses duplicate child keys. -/
def DistinctKeys (children : List (FlowChildSpec V)) : Prop :=
  (children.map (·.childKey)).Nodup

theorem covers_accounts : Accounts (V := V) Covers fun _ => True where
  fresh failFast flowId now children _ := by
    have h := size_newRows_le flowId now children
    rw [Covers, countStatus_newRows, if_pos rfl]
    exact h
  report {flow rows report row} hrow hp h := by
    have hcount := countStatus_report hrow hp .pending
    rw [if_pos rfl, if_neg (toChildStatus_ne_pending _).symm] at hcount
    unfold Covers countOutcome at *
    simp only
    omega
  settle {flow rows} _ := by
    rw [Covers, countStatus_markRow, if_pos rfl]
    exact Nat.zero_le _
  same {flow rows rows'} hcount h := by
    rw [Covers, hcount]
    exact h

theorem balanced_accounts : Accounts (V := V) Balanced DistinctKeys where
  fresh failFast flowId now children hnd := by
    constructor <;> simp [countStatus_newRows, size_newRows hnd]
  report {flow rows report row} hrow hp h := by
    have hcount := countStatus_report hrow hp
    have hpos := countStatus_pos hrow hp
    have h₁ := hcount .pending
    have h₂ := hcount .completed
    have h₃ := hcount .failed
    have h₄ := hcount .cancelled
    obtain ⟨hpe, hco, hfa, hca⟩ := h
    cases ho : report.outcome <;> simp [ho, TerminalState.toChildStatus] at h₁ h₂ h₃ h₄ <;>
      constructor <;> simp [countOutcome] <;> omega
  settle {flow rows} h := by
    obtain ⟨hpe, hco, hfa, hca⟩ := h
    constructor <;> simp [settledFlow, countStatus_markRow, hco, hfa, hca]
  same {flow rows rows'} hcount h := by
    obtain ⟨hpe, hco, hfa, hca⟩ := h
    constructor <;> simp [hcount, hpe, hco, hfa, hca]

/-! ## The invariant at one id -/

def Label.Fans (ok : List (FlowChildSpec V) → Prop) : Label V → Prop
  | .park _ _ children _ => ok children
  | _ => True

/-- Rows and manifest come together, agree, and only a parked parent waits for a child. -/
structure Booked (R : FlowState → Rows V → Prop) (v : View V) : Prop where
  owned : ∀ rows, v.rows = some rows → ∃ job flow, v.job = some job ∧ job.flow = some flow
  booked : ∀ job flow, v.job = some job → job.flow = some flow → ∃ rows, v.rows = some rows ∧ R flow rows
  parked : ∀ job flow, v.job = some job → job.flow = some flow → 0 < flow.pending →
    job.state = .waitingChildren
  marked : ∀ job, v.job = some job → job.state = .waitingChildren → ∃ flow, job.flow = some flow

theorem Booked.absent (R : FlowState → Rows V → Prop) : Booked R (⟨none, none⟩ : View V) := by
  refine ⟨fun _ h => ?_, fun _ _ h => ?_, fun _ _ h => ?_, fun _ h => ?_⟩ <;> cases h

/-- A job whose manifest and rows stay as they are, and that is parked if it was. -/
theorem Booked.replace {R : FlowState → Rows V → Prop} {job job' : MemJob V}
    {rows? : Option (Rows V)} (h : Booked R ⟨some job, rows?⟩) (hflow : job'.flow = job.flow)
    (hp : ∀ flow, job.flow = some flow → 0 < flow.pending → job'.state = .waitingChildren)
    (hm : job'.state = .waitingChildren → ∃ flow, job.flow = some flow) :
    Booked R ⟨some job', rows?⟩ := by
  refine ⟨?_, ?_, ?_, ?_⟩
  · intro rows hr
    obtain ⟨j, flow, hj, hf⟩ := h.owned rows hr
    cases hj
    exact ⟨job', flow, rfl, hflow.trans hf⟩
  · rintro _ flow ⟨⟩ hf
    exact h.booked job flow rfl (hflow.symm.trans hf)
  · rintro _ flow ⟨⟩ hf hpos
    exact hp flow (hflow.symm.trans hf) hpos
  · rintro _ ⟨⟩ hst
    obtain ⟨flow, hf⟩ := hm hst
    exact ⟨flow, hflow.trans hf⟩

theorem Booked.not_pending {R : FlowState → Rows V → Prop} {job : MemJob V} {flow : FlowState}
    {v : View V} (h : Booked R v) (hj : v.job = some job) (hf : job.flow = some flow)
    (hw : job.state ≠ .waitingChildren) : flow.pending = 0 := by
  by_contra hne
  exact hw (h.parked job flow hj hf (Nat.pos_of_ne_zero hne))

/-- A pending row belongs to a parked parent. -/
theorem Booked.parked_of_pending {job? : Option (MemJob V)} {rows : Rows V}
    (h : Booked Covers ⟨job?, some rows⟩) {childKey : String} {row : MemFlowChild V}
    (hrow : rows.get? childKey = some row) (hp : row.status = .pending) :
    ∃ job, job? = some job ∧ job.state = .waitingChildren := by
  obtain ⟨job, flow, hj, hf⟩ := h.owned rows rfl
  obtain ⟨_, hr, hcov⟩ := h.booked job flow hj hf
  cases hr
  have hpos := countStatus_pos hrow hp
  exact ⟨job, hj, h.parked job flow hj hf (Nat.lt_of_lt_of_le hpos hcov)⟩

theorem Booked.rows_same {R : FlowState → Rows V → Prop} {ok : List (FlowChildSpec V) → Prop}
    (hR : Accounts R ok) {job? : Option (MemJob V)} {rows rows' : Rows V}
    (hcount : ∀ status, countStatus rows' status = countStatus rows status)
    (h : Booked R ⟨job?, some rows⟩) : Booked R ⟨job?, some rows'⟩ := by
  refine ⟨?_, ?_, h.parked, h.marked⟩
  · exact fun _ _ => h.owned rows rfl
  · intro job flow hj hf
    obtain ⟨_, hr, hbal⟩ := h.booked job flow hj hf
    cases hr
    exact ⟨rows', rfl, hR.same hcount hbal⟩

theorem Booked.step {R : FlowState → Rows V → Prop} {ok : List (FlowChildSpec V) → Prop}
    (hR : Accounts R ok) {id : JobId} {l : Label V} {v v' : View V} (h : ViewStep id l v v')
    (hl : l.Fans ok) (hv : Booked R v) : Booked R v' := by
  cases h with
  | same => exact hv
  | insert request now seq rows? =>
    -- an absent job has no rows
    refine ⟨?_, fun _ _ hj hf => ?_, fun _ _ hj hf => ?_, fun _ hj hw => ?_⟩
    · intro rows hr
      obtain ⟨_, _, hj, _⟩ := hv.owned rows hr
      cases hj
    · cases hj
      cases hf
    · cases hj
      cases hf
    · cases hj
      revert hw
      simp only [newJob]
      split <;> simp
  | @promote job now rows? hd hr =>
    refine hv.replace rfl (fun flow hf hpos => ?_) (fun hw => by cases hw)
    have hw := hv.parked job flow rfl hf hpos
    rw [hd] at hw
    cases hw
  | @move job m rows? hm =>
    refine hv.replace (Move.apply_flow job m) (fun flow hf hpos => ?_) (fun hw => ?_)
    · obtain ⟨flow', hf', hz⟩ := hm.parked (hv.parked job flow rfl hf hpos)
      rw [hf] at hf'
      cases hf'
      omega
    · cases m with
      | replace | extend | requestCancel => exact hv.marked job rfl hw
      | requeue delayMs =>
        revert hw
        simp only [Move.apply]
        split <;> simp
      | promoteNow | claim | release | stall | retry | resume => cases hw
  | @finish job e now rows? he hw =>
    refine hv.replace (endJob_flow job now e) (fun flow hf hpos => ?_) (fun hw' => ?_)
    · exact absurd (hv.parked job flow rfl hf hpos) hw
    · rw [endJob_state] at hw'
      cases ho : e.outcome <;> rw [ho] at hw' <;> cases hw'
  | @settle job e now rows? he hw =>
    refine ⟨?_, ?_, ?_, ?_⟩
    · intro rows hr
      obtain ⟨rows₀, hr₀, _⟩ := Option.map_eq_some_iff.mp hr
      obtain ⟨j, flow, hj, hf⟩ := hv.owned rows₀ hr₀
      cases hj
      exact ⟨_, _, rfl, by rw [endJob_flow, hf]; rfl⟩
    · rintro _ flow' ⟨⟩ hf'
      rw [endJob_flow] at hf'
      obtain ⟨flow, hf, rfl⟩ := Option.map_eq_some_iff.mp hf'
      obtain ⟨rows, rfl, hbal⟩ := hv.booked job flow rfl hf
      exact ⟨_, rfl, hR.settle hbal⟩
    · rintro _ flow' ⟨⟩ hf' hpos
      rw [endJob_flow] at hf'
      obtain ⟨flow, hf, rfl⟩ := Option.map_eq_some_iff.mp hf'
      cases hpos
    · rintro _ ⟨⟩ hw'
      rw [endJob_state] at hw'
      cases ho : e.outcome <;> rw [ho] at hw' <;> cases hw'
  | @fanOut job failFast children now rows? ha hf =>
    refine ⟨fun _ _ => ⟨_, _, rfl, rfl⟩, ?_, fun _ _ hj _ _ => ?_, fun _ hj _ => ?_⟩
    · rintro _ _ ⟨⟩ ⟨⟩
      exact ⟨_, rfl, hR.fresh failFast id now hl⟩
    · cases hj
      rfl
    · cases hj
      exact ⟨_, rfl⟩
  | @refan job flow failFast children now rows? ha hf =>
    exact hv.replace hf.symm (fun _ _ _ => rfl) (fun _ => ⟨flow, hf⟩)
  | @report rows row job? report hid hrow hp =>
    obtain ⟨job, flow, hj, hf⟩ := hv.owned rows rfl
    cases hj
    obtain ⟨_, hr, hbal⟩ := hv.booked job flow rfl hf
    cases hr
    have hf' : (countReport report job).flow = some (countOutcome flow report.outcome) := by
      rw [countReport, hf]
      rfl
    refine ⟨fun _ _ => ⟨_, _, rfl, hf'⟩, ?_, ?_, ?_⟩
    · rintro _ flow' ⟨⟩ hf''
      rw [hf'] at hf''
      cases hf''
      exact ⟨_, rfl, hR.report hrow hp hbal⟩
    · rintro _ flow' ⟨⟩ hf'' hpos
      rw [hf'] at hf''
      cases hf''
      have hpos : 0 < flow.pending - 1 := hpos
      exact hv.parked job flow rfl hf (by omega)
    · rintro _ ⟨⟩ _
      exact ⟨_, hf'⟩
  | remove | prune => exact .absent R
  | rearm _ rows childKey now =>
    exact hv.rows_same hR fun status => countStatus_modify rows childKey
      (fun row => { row with pendingSince := now }) (fun _ => rfl) status
  | cascade _ rows childKey =>
    exact hv.rows_same hR fun status => countStatus_modify rows childKey
      (fun row => { row with cascaded := true }) (fun _ => rfl) status

/-! ## Booked after every operation -/

def Op.Fans (ok : List (FlowChildSpec V) → Prop) : Op V → Prop
  | .ack _ _ (.fanOut _ children) => ok children
  | _ => True

theorem Op.fans_all (op : Op V) : op.Fans fun _ => True := by
  cases op with
  | ack id token outcome => cases outcome <;> trivial
  | _ => trivial

theorem Allows.fans {ok : List (FlowChildSpec V) → Prop} {now : Millis} {op : Op V} {l : Label V}
    (h : Allows now op l) (hop : op.Fans ok) : l.Fans ok := by
  cases h with
  | ackPark => exact hop
  | _ => trivial

theorem exec_booked {R : FlowState → Rows V → Prop} {ok : List (FlowChildSpec V) → Prop}
    (hR : Accounts R ok) {s : Store V} (hk : s.toCore.Keyed) {now : Millis} {op : Op V}
    (hop : op.Fans ok) {id : JobId} (h : Booked R (s.toCore.view id)) :
    Booked R ((exec s now op).toCore.view id) :=
  (exec_does hk now op).view hk id
    (fun _ _ _ hl hstep _ hv => hv.step hR hstep (hl.fans hop)) h

/-! ## A parked parent waits for a child -/

def View.Open (v : View V) : Prop :=
  ∀ job, v.job = some job → job.state = .waitingChildren →
    ∃ flow, job.flow = some flow ∧ 0 < flow.pending

def View.NotParked (v : View V) : Prop :=
  ∀ job, v.job = some job → job.state ≠ .waitingChildren

theorem View.NotParked.isOpen {v : View V} (h : v.NotParked) : v.Open :=
  fun job hj hw => absurd hw (h job hj)

/-- The two steps that may leave a parent parked with nothing pending. -/
def Label.Counts (id : JobId) : Label V → Prop
  | .park id' _ _ _ => id' = id
  | .report r => r.flowId = id
  | _ => False

theorem View.Open.step {id : JobId} {l : Label V} {v v' : View V} (h : ViewStep id l v v')
    (hl : ¬ l.Counts id) (hv : v.Open) : v'.Open := by
  intro job' hj hw
  cases h with
  | same => exact hv job' hj hw
  | insert =>
    cases hj
    revert hw
    simp only [newJob]
    split <;> simp
  | promote =>
    cases hj
    cases hw
  | @move job m rows? hm =>
    cases hj
    rw [Move.apply_flow]
    cases m with
    | replace | extend | requestCancel => exact hv job rfl hw
    | requeue delayMs =>
      revert hw
      simp only [Move.apply]
      split <;> simp
    | promoteNow | claim | release | stall | retry | resume => cases hw
  | @finish job e | @settle job e =>
    cases hj
    rw [endJob_state] at hw
    cases ho : e.outcome <;> rw [ho] at hw <;> cases hw
  | fanOut | refan => exact absurd rfl hl
  | report _ _ hid => exact absurd hid hl
  | remove | prune => cases hj
  | rearm | cascade => exact hv job' hj hw

theorem Core.Finishes.notParked {c d : Core V} {id : JobId} {e : Ending V} {now : Millis}
    (h : c.Finishes id e now d) (hk : c.Keyed) : (d.view id).NotParked := by
  refine h.view hk (fun _ hj => by cases hj) fun job flow rows? _ _ j hj => ?_
  cases hj
  rw [endJob_state]
  cases e.outcome <;> decide

theorem resume_notParked {c d : Core V} {id : JobId} {now : Millis} {seq : ℕ} (hk : c.Keyed)
    (h : Step c (.move id (.resume now seq)) d) : (d.view id).NotParked := by
  obtain ⟨job, _, _, hview⟩ := h.move_view hk
  rw [hview]
  intro j hj hw
  cases hj
  cases hw

theorem ackFanOut_open {s : Store V} (hk : s.toCore.Keyed) {job : MemJob V} (now : Millis)
    (failFast : Bool) (children : List (FlowChildSpec V)) (hj : s.jobs.get? job.id = some job)
    (ha : job.state = .active) {id : JobId} (ho : (s.toCore.view id).Open) :
    ((ackFanOut s now (clearLock job) failFast children).toCore.view id).Open := by
  have hpark : Step s.toCore (.park job.id failFast children now)
      (s.toCore.park job failFast children now) := .park failFast children now hj ha
  have hk' := hpark.keyed hk
  by_cases hid : id = job.id
  · subst hid
    rcases ackFanOut_cases hk now failFast children hj ha with ⟨_, hfin⟩ | ⟨_, seq, hmove⟩ |
      ⟨_, hpos, heq⟩
    · exact (hfin.notParked hk').isOpen
    · exact (resume_notParked hk' hmove).isOpen
    · intro j hj' _
      rw [heq, Core.view, park_get?, if_pos rfl] at hj'
      cases hj'
      exact ⟨_, rfl, hpos⟩
  · have ho' := ho.step (hpark.view hk id) (fun h => hid h.symm)
    rcases ackFanOut_cases hk now failFast children hj ha with ⟨_, d, hfin, hprunes⟩ |
      ⟨_, seq, hmove⟩ | ⟨_, _, heq⟩
    · exact prunes_view (hfin.keyed hk') hprunes (fun _ hj => by cases hj)
        (ho'.step (hfin.view hk' id) (fun h => h))
    · exact ho'.step (hmove.view hk' id) (fun h => h)
    · rwa [heq]

theorem ack_open {s : Store V} (hk : s.toCore.Keyed) (now : Millis) (id' : JobId) (token : String)
    (outcome : AckOutcome V) {id : JobId} (ho : (s.toCore.view id).Open) :
    ((ack s now id' token outcome).2.toCore.view id).Open := by
  cases outcome with
  | fanOut failFast children =>
    unfold ack
    split
    · exact ho
    · rename_i job hj
      split
      · exact ho
      · rename_i hlock
        split
        · exact ho
        · obtain rfl := hk _ _ hj
          exact ackFanOut_open hk now failFast children hj (by_contra fun h => hlock (.inl h)) ho
  | _ =>
    refine (ack_does hk now id' token _).view hk id (fun l v v' hl hstep _ hv => ?_) ho
    refine hv.step hstep ?_
    cases hl <;> exact fun h => h

/-! ## Batches of reports -/

/-- Phase 1 leaves a parent parked with nothing pending only if it touched it. -/
theorem recordReport_open {acc : RecordState V} (hk : acc.core.Keyed)
    (entry : FlowChildReport V × ℕ)
    (ho : ∀ id, (acc.core.view id).Open ∨ id ∈ acc.touched.keys) (id : JobId) :
    ((recordReport acc entry).core.view id).Open ∨ id ∈ (recordReport acc entry).touched.keys := by
  unfold recordReport
  simp only
  split
  · exact ho id
  · rename_i row hrow
    split
    · exact ho id
    · rename_i hp
      have hstep : Step acc.core (.report entry.1) (acc.core.applyReport row entry.1) :=
        .report entry.1 hrow (by_contra hp)
      have hkeys : id = entry.1.flowId ∨ id ∈ acc.touched.keys →
          id ∈ (touchReport acc.touched entry.1 entry.2).keys := by
        intro h
        rw [JsMap.mem_keys, touchReport, JsMap.get?_set]
        by_cases hid : id = entry.1.flowId
        · exact ⟨_, if_pos hid⟩
        · rw [if_neg hid]
          exact JsMap.mem_keys.mp (h.resolve_left hid)
      by_cases hid : id = entry.1.flowId
      · exact .inr (hkeys (.inl hid))
      · rcases ho id with ho | ho
        · exact .inl (ho.step (hstep.view hk id) fun h => hid (Eq.symm h))
        · exact .inr (hkeys (.inr ho))

theorem recorded_open {s : Store V} (hk : s.toCore.Keyed) (reports : List (FlowChildReport V))
    (ho : ∀ id, (s.toCore.view id).Open) (id : JobId) :
    ((recorded s reports).core.view id).Open ∨ id ∈ (recorded s reports).touched.keys := by
  unfold recorded
  have hfold : ∀ (entries : List (FlowChildReport V × ℕ)) (acc : RecordState V), acc.core.Keyed →
      (∀ id, (acc.core.view id).Open ∨ id ∈ acc.touched.keys) →
      ∀ id, ((entries.foldl recordReport acc).core.view id).Open ∨
        id ∈ (entries.foldl recordReport acc).touched.keys := by
    intro entries
    induction entries with
    | nil => exact fun _ _ h => h
    | cons entry entries ih =>
      intro acc hk h
      have hdoes := @recordReport_does V 0 [entry.1] acc entry (by simp)
      exact ih _ (hdoes.keyed hk) (recordReport_open hk entry h)
  exact hfold _ _ hk (fun id => .inl (ho id)) id

/-- Phase 2 leaves the flow it looks at open, and every other one as open as it was. -/
theorem settleTouched_open (now : Millis) (reports : List (FlowChildReport V))
    (acc : List ReportResult × Store V) (entry : JobId × Touch) (hk : acc.2.toCore.Keyed)
    (hb : Booked Covers (acc.2.toCore.view entry.1)) (id : JobId)
    (ho : (acc.2.toCore.view id).Open ∨ id = entry.1) :
    ((settleTouched now reports acc entry).2.toCore.view id).Open := by
  by_cases hid : id = entry.1
  · subst hid
    unfold settleTouched
    simp only
    split
    · rename_i hnone
      intro job hj
      rw [Core.view, hnone] at hj
      cases hj
    · rename_i parent hj
      have hpid := hk _ _ hj
      split
      · rename_i hflow
        intro job hj' hw
        obtain ⟨flow, hf⟩ := hb.marked job hj' hw
        rw [Core.view, hj] at hj'
        cases hj'
        rw [hflow] at hf
        cases hf
      · rename_i flow hflow
        split
        · rename_i hw
          intro job hj' hw'
          rw [Core.view, hj] at hj'
          cases hj'
          exact absurd hw' hw
        · rename_i hw
          have hw : parent.state = .waitingChildren := by_contra hw
          split
          · rename_i index report _
            rw [← hpid] at hj ⊢
            exact ((settleFailFast_finishes hk now report.childKey hj hw).notParked hk).isOpen
          · split
            · rename_i hpending
              have hmove : Step acc.2.toCore (.move entry.1 (.resume now (acc.2.seq + 1))) _ :=
                .move (.resume now (acc.2.seq + 1)) hj ⟨hw, flow, hflow, hpending⟩
              rw [makeRunnable_toCore]
              exact (resume_notParked hk hmove).isOpen
            · rename_i hpending
              intro job hj' _
              rw [Core.view, hj] at hj'
              cases hj'
              exact ⟨flow, hflow, Nat.pos_of_ne_zero hpending⟩
  · refine (settleTouched_does now reports acc entry hk).view hk id
      (fun l v v' hl hstep _ hv => hv.step hstep ?_) (ho.resolve_right hid)
    cases l with
    | park | report => exact hl.elim
    | _ => exact fun h => h

theorem recordChildResults_open {s : Store V} (hk : s.toCore.Keyed) (now : Millis)
    (reports : List (FlowChildReport V)) (hb : ∀ id, Booked Covers (s.toCore.view id))
    (ho : ∀ id, (s.toCore.view id).Open) (id : JobId) :
    ((recordChildResults s now reports).2.toCore.view id).Open := by
  have hdoes := recorded_does s now reports
  have hfold : ∀ (entries : List (JobId × Touch)) (acc : List ReportResult × Store V),
      acc.2.toCore.Keyed → (∀ id, Booked Covers (acc.2.toCore.view id)) →
      (∀ id, (acc.2.toCore.view id).Open ∨ id ∈ entries.map Prod.fst) →
      ∀ id, ((entries.foldl (settleTouched now reports) acc).2.toCore.view id).Open := by
    intro entries
    induction entries with
    | nil => exact fun acc _ _ ho id => (ho id).resolve_right List.not_mem_nil
    | cons entry entries ih =>
      intro acc hk hb ho
      have hsettle := settleTouched_does now reports acc entry hk
      refine ih _ (hsettle.keyed hk) (fun id => ?_) (fun id => ?_)
      · exact hsettle.view hk id (fun l _ _ hl hstep _ hv =>
          hv.step covers_accounts hstep ((hl.allows reports).fans trivial)) (hb id)
      · rcases ho id with ho | ho
        · exact .inl (settleTouched_open now reports acc entry hk (hb _) id (.inl ho))
        · rw [List.map_cons, List.mem_cons] at ho
          rcases ho with ho | ho
          · exact .inl (settleTouched_open now reports acc entry hk (hb _) id (.inr ho))
          · exact .inr ho
  refine hfold _ ((recorded s reports).results, { s with toCore := (recorded s reports).core })
    (hdoes.keyed hk) (fun id => ?_) (recorded_open hk reports ho) id
  exact hdoes.view hk id (fun l _ _ hl hstep _ hv => hv.step covers_accounts hstep (hl.fans trivial))
    (hb id)

/-! ## Reachable stores -/

theorem exec_open {s : Store V} (hk : s.toCore.Keyed) (now : Millis) (op : Op V)
    (hb : ∀ id, Booked Covers (s.toCore.view id)) (ho : ∀ id, (s.toCore.view id).Open)
    (id : JobId) : ((exec s now op).toCore.view id).Open := by
  cases op with
  | ack id' token outcome => exact ack_open hk now id' token outcome (ho id)
  | recordChildResults reports => exact recordChildResults_open hk now reports hb ho id
  | _ =>
    refine (exec_does hk now _).view hk id (fun l v v' hl hstep _ hv => ?_) (ho id)
    refine hv.step hstep ?_
    cases hl <;> exact fun h => h

/-- What every reachable store satisfies, for fan-outs with children `ok`. -/
structure FlowInv (R : FlowState → Rows V → Prop) (s : Store V) : Prop where
  keyed : s.toCore.Keyed
  booked : ∀ id, Booked R (s.toCore.view id)
  covered : ∀ id, Booked Covers (s.toCore.view id)
  isOpen : ∀ id, (s.toCore.view id).Open

theorem FlowInv.empty (R : FlowState → Rows V → Prop) : FlowInv R (Store.empty : Store V) where
  keyed := fun _ _ h => by cases h
  booked := fun _ => .absent R
  covered := fun _ => .absent Covers
  isOpen := fun _ _ h => by cases h

theorem FlowInv.exec {R : FlowState → Rows V → Prop} {ok : List (FlowChildSpec V) → Prop}
    (hR : Accounts R ok) {s : Store V} (h : FlowInv R s) (now : Millis) {op : Op V}
    (hop : op.Fans ok) : FlowInv R (exec s now op) where
  keyed := exec_keyed h.keyed now op
  booked := fun id => exec_booked hR h.keyed hop (h.booked id)
  covered := fun id => exec_booked covers_accounts h.keyed
    op.fans_all (h.covered id)
  isOpen := exec_open h.keyed now op h.covered h.isOpen

theorem reachable_flowInv {R : FlowState → Rows V → Prop} {ok : List (FlowChildSpec V) → Prop}
    (hR : Accounts R ok) {s : Store V} (h : Reachable Initial (NextWhere (Op.Fans ok)) s) :
    FlowInv R s := by
  refine h.induct (I := FlowInv R) ?_ ?_
  · rintro s rfl
    exact .empty R
  · rintro s event s' ⟨hop, rfl⟩ hs
    exact hs.exec hR event.1 hop

/-- Flow bookkeeping. Every row belongs to a flow parent, the counters of a parent are the numbers of
its rows in each status, a row is pending only under a parked parent, and a parked parent has a
positive pending counter. -/
theorem flow_counters_agree {s : Store V}
    (h : Reachable Initial (NextWhere (Op.Fans DistinctKeys)) s) :
    (∀ id childKey row, s.row? id childKey = some row →
      ∃ job flow, s.jobs.get? id = some job ∧ job.flow = some flow) ∧
    (∀ id job flow, s.jobs.get? id = some job → job.flow = some flow →
      ∃ rows, s.flowChildren.get? id = some rows ∧ Balanced flow rows ∧
        flow.pending + flow.completed + flow.failed + flow.cancelled = rows.size) ∧
    (∀ id childKey row, s.row? id childKey = some row → row.status = .pending →
      ∃ job, s.jobs.get? id = some job ∧ job.state = .waitingChildren) ∧
    (∀ id job, s.jobs.get? id = some job → job.state = .waitingChildren →
      ∃ flow, job.flow = some flow ∧ 0 < flow.pending) := by
  have hinv := reachable_flowInv balanced_accounts h
  refine ⟨?_, ?_, ?_, fun id => hinv.isOpen id⟩
  · intro id childKey row hrow
    obtain ⟨rows, hrows, _⟩ := Option.bind_eq_some_iff.mp hrow
    exact (hinv.booked id).owned rows hrows
  · intro id job flow hj hf
    obtain ⟨rows, hrows, hbal⟩ := (hinv.booked id).booked job flow hj hf
    refine ⟨rows, hrows, hbal, ?_⟩
    rw [hbal.pending, hbal.completed, hbal.failed, hbal.cancelled, countStatus_sum]
  · intro id childKey row hrow hp
    obtain ⟨rows, hrows, hrow⟩ := Option.bind_eq_some_iff.mp hrow
    obtain ⟨job, flow, hj, hf⟩ := (hinv.booked id).owned rows hrows
    obtain ⟨rows', hrows', hbal⟩ := (hinv.booked id).booked job flow hj hf
    obtain rfl := Option.some.inj (hrows.symm.trans hrows')
    refine ⟨job, hj, (hinv.booked id).parked job flow hj hf ?_⟩
    rw [hbal.pending]
    exact countStatus_pos hrow hp

/-- A fan-out of two children of which one has reported. -/
def twoChildren : List (Millis × Op Unit) :=
  [(0, .enqueue (.plain "p" "flow" "q" ()) .counter),
    (1, .claim ⟨"q", ["flow"], "t", 30⟩),
    (2, .ack "p" "t" (.fanOut false
      [⟨"a", "kids", .plain "a" "child" "q" ()⟩, ⟨"b", "kids", .plain "b" "child" "q" ()⟩])),
    (3, .recordChildResults [⟨"p", "a", .completed, none, none⟩])]

theorem flow_counters_agree_twoChildren :
    ∃ job flow, (execs Store.empty twoChildren).jobs.get? "p" = some job ∧
      job.flow = some flow ∧ 0 < flow.pending := by
  have h := flow_counters_agree (reachable_execs (p := Op.Fans DistinctKeys) twoChildren (by
    simp [twoChildren, Op.Fans, DistinctKeys]))
  obtain ⟨job, hj, hw⟩ := h.2.2.1 "p" "b" _ rfl rfl
  obtain ⟨flow, hf, hpos⟩ := h.2.2.2 "p" job hj hw
  exact ⟨job, flow, hj, hf, hpos⟩

end EffectMq.Memory
