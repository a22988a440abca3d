import EffectMq.MemoryJobStore.Records

/-! # Manifests

`specsOf` is the manifest a flow parent keeps in its dependency rows. A first fan-out writes it, and
nothing changes it while the parent exists (`exec_manifest?`, `ackFanOut_manifest?`). A row of a
persisted manifest does not become pending again (`exec_waits`).

`Ledger` is a store with a history variable: the manifest that landed under each parent id. While no
id of a deleted parent is reused, store and history agree (`LedgerInv`).
-/

namespace EffectMq.Memory
set_option autoImplicit false
set_option maxHeartbeats 250000

open Transition

variable {V : Type}

/-! ## The manifest -/

def specOf (row : MemFlowChild V) : FlowChildSpec V :=
  ⟨row.childKey, row.storeKey, row.spec⟩

/-- The child keys, store keys and requests a flow was fanned out with. -/
def specsOf (rows : Rows V) : List (FlowChildSpec V) :=
  rows.values.map specOf

theorem specsOf_mapValues (rows : Rows V) {f : MemFlowChild V → MemFlowChild V}
    (hf : ∀ row, specOf (f row) = specOf row) :
    specsOf (rows.mapValues fun _ => f) = specsOf rows := by
  rw [specsOf, JsMap.values_mapValues, List.map_map]
  exact List.map_congr_left fun row _ => hf row

theorem specsOf_modify (rows : Rows V) (childKey : String) {f : MemFlowChild V → MemFlowChild V}
    (hf : ∀ row, rows.get? childKey = some row → specOf (f row) = specOf row) :
    specsOf (rows.modify childKey f) = specsOf rows := by
  unfold specsOf JsMap.modify JsMap.values JsMap.mapValues
  simp only [List.map_map]
  apply List.map_congr_left
  intro e he
  by_cases h : e.1 = childKey
  · have hget : rows.get? childKey = some e.2 := JsMap.get?_eq_some.mpr (h ▸ he)
    simp only [Function.comp_apply, h, if_true, hf e.2 hget]
  · simp only [Function.comp_apply, if_neg h]

theorem specOf_markRow (row : MemFlowChild V) : specOf (markRow row) = specOf row := by
  unfold markRow
  split <;> rfl

theorem specsOf_newRows {children : List (FlowChildSpec V)} (h : DistinctKeys children)
    (flowId : JobId) (now : Millis) : specsOf (newRows flowId now children) = children := by
  have hentries := JsMap.entries_foldl_set (fun child : FlowChildSpec V => child.childKey)
    (newRow flowId now) children ∅ h (by simp)
  rw [specsOf, JsMap.values, newRows, hentries]
  simp [Function.comp_def, specOf, newRow, JsMap.entries_empty]

def View.manifest? (v : View V) : Option (List (FlowChildSpec V)) :=
  v.rows.map specsOf

/-- The persisted manifest of a flow parent. -/
def manifest? (s : Store V) (id : JobId) : Option (List (FlowChildSpec V)) :=
  (s.flowChildren.get? id).map specsOf

theorem Booked.manifest?_isSome {R : FlowState → Rows V → Prop} {v : View V} (hb : Booked R v)
    {job : MemJob V} (hj : v.job = some job) : v.manifest?.isSome = job.flow.isSome := by
  rw [View.manifest?, Option.isSome_map, Bool.eq_iff_iff, Option.isSome_iff_exists,
    Option.isSome_iff_exists]
  constructor
  · rintro ⟨rows, hr⟩
    obtain ⟨job', flow, hj', hf⟩ := hb.owned rows hr
    cases hj.symm.trans hj'
    exact ⟨flow, hf⟩
  · rintro ⟨flow, hf⟩
    obtain ⟨rows, hr, _⟩ := hb.booked job flow hj hf
    exact ⟨rows, hr⟩

/-! ## What a step does to the rows -/

/-- The row is there and pending. -/
def View.Waits (v : View V) (childKey : String) : Prop :=
  ∃ rows row, v.rows = some rows ∧ rows.get? childKey = some row ∧ row.status = .pending

def Waits (s : Store V) (flowId : JobId) (childKey : String) : Prop :=
  (s.toCore.view flowId).Waits childKey

theorem waits_iff {s : Store V} {flowId : JobId} {childKey : String} :
    Waits s flowId childKey ↔
      ∃ row, s.row? flowId childKey = some row ∧ row.status = .pending := by
  unfold Waits View.Waits Core.row? Core.view
  constructor
  · rintro ⟨rows, row, hr, hrow, hp⟩
    exact ⟨row, Option.bind_eq_some_iff.mpr ⟨rows, hr, hrow⟩, hp⟩
  · rintro ⟨row, hrow, hp⟩
    obtain ⟨rows, hr, hrow⟩ := Option.bind_eq_some_iff.mp hrow
    exact ⟨rows, row, hr, hrow, hp⟩

/-- The step writes a new manifest. -/
def View.Opens (v : View V) (id : JobId) (l : Label V) : Prop :=
  ∃ failFast children now job, l = .park id failFast children now ∧ v.job = some job ∧
    job.flow = none

/-- Nothing but a first fan-out writes the manifest of an id. -/
theorem ViewStep.manifest? {id : JobId} {l : Label V} {v v' : View V} (h : ViewStep id l v v')
    (hl : ¬ v.Opens id l) : v'.manifest? = v.manifest? ∨ v'.job = none ∧ l.Deletes := by
  cases h with
  | same | insert | promote | move | finish | refan => exact .inl rfl
  | settle _ _ rows? =>
    refine .inl ?_
    cases rows? with
    | none => rfl
    | some rows => exact congrArg some (specsOf_mapValues rows specOf_markRow)
  | fanOut _ _ _ _ _ hf => exact absurd ⟨_, _, _, _, rfl, rfl, hf⟩ hl
  | @report rows row _ report _ hrow =>
    have heq := specsOf_modify rows report.childKey (f := fun _ => reportRow row report)
      fun row' hrow' => by
        cases hrow.symm.trans hrow'
        rfl
    exact .inl (congrArg some heq)
  | rearm _ rows childKey | cascade _ rows childKey =>
    exact .inl (congrArg some (specsOf_modify rows childKey fun _ _ => rfl))
  | remove | prune => exact .inr ⟨rfl, trivial⟩

def View.row? (v : View V) (childKey : String) : Option (MemFlowChild V) :=
  v.rows.bind fun rows => rows.get? childKey

theorem View.waits_iff {v : View V} {childKey : String} :
    v.Waits childKey ↔ ∃ row, v.row? childKey = some row ∧ row.status = .pending := by
  unfold View.Waits View.row?
  constructor
  · rintro ⟨rows, row, hr, hrow, hp⟩
    exact ⟨row, Option.bind_eq_some_iff.mpr ⟨rows, hr, hrow⟩, hp⟩
  · rintro ⟨row, hrow, hp⟩
    obtain ⟨rows, hr, hrow⟩ := Option.bind_eq_some_iff.mp hrow
    exact ⟨rows, row, hr, hrow, hp⟩

/-- What a step that neither opens nor settles the flow can do to one of its rows. -/
inductive RowStep (id : JobId) (childKey : String) :
    Label V → MemFlowChild V → MemFlowChild V → Prop
  | same (l : Label V) (row : MemFlowChild V) : RowStep id childKey l row row
  | report {row : MemFlowChild V} (report : FlowChildReport V) (hid : report.flowId = id)
      (hkey : report.childKey = childKey) (hp : row.status = .pending) :
      RowStep id childKey (.report report) row (reportRow row report)
  | rearm (row : MemFlowChild V) (now : Millis) :
      RowStep id childKey (.rearm id childKey now) row { row with pendingSince := now }
  | cascade (row : MemFlowChild V) :
      RowStep id childKey (.cascade id childKey) row { row with cascaded := true }

/-- A row after a step: one from before, one a settle marked, or a fresh one. -/
theorem ViewStep.row {id : JobId} {l : Label V} {v v' : View V} (h : ViewStep id l v v')
    {childKey : String} {row' : MemFlowChild V} (hrow' : v'.row? childKey = some row') :
    (∃ row, v.row? childKey = some row ∧ RowStep id childKey l row row') ∨
      (∃ row, v.row? childKey = some row ∧ row.status = .pending ∧ row' = markRow row ∧
        ∃ job, v'.job = some job ∧ job.state.isTerminal = true) ∨
      v.Opens id l ∧ row'.status = .pending ∧ row'.cascaded = false := by
  obtain ⟨rows', hr', hget'⟩ := Option.bind_eq_some_iff.mp hrow'
  have hmodify : ∀ (job? : Option (MemJob V)) (rows : Rows V) (key : String)
      (f : MemFlowChild V → MemFlowChild V), (rows.modify key f).get? childKey = some row' →
      ∃ row, (⟨job?, some rows⟩ : View V).row? childKey = some row ∧
        (row' = row ∨ key = childKey ∧ row' = f row) := by
    intro job? rows key f hget
    rw [JsMap.get?_modify] at hget
    split at hget
    · rename_i hkey
      obtain ⟨row, hrow, rfl⟩ := Option.map_eq_some_iff.mp hget
      exact ⟨row, hkey ▸ hrow, .inr ⟨hkey.symm, rfl⟩⟩
    · exact ⟨row', hget, .inl rfl⟩
  cases h with
  | same | insert | promote | move | finish | refan => exact .inl ⟨row', hrow', .same _ _⟩
  | settle e now rows? =>
    obtain ⟨rows, rfl, rfl⟩ := Option.map_eq_some_iff.mp hr'
    rw [JsMap.get?_mapValues] at hget'
    obtain ⟨row, hrow, rfl⟩ := Option.map_eq_some_iff.mp hget'
    by_cases hp : row.status = .pending
    · refine .inr (.inl ⟨row, hrow, hp, rfl, _, rfl, ?_⟩)
      rw [endJob_state, isTerminal_toJobState]
    · rw [markRow, if_neg hp]
      exact .inl ⟨row, hrow, .same _ _⟩
  | fanOut failFast children now rows? _ hf =>
    cases hr'
    obtain ⟨child, _, _, rfl⟩ := newRows_pending hget'
    exact .inr (.inr ⟨⟨_, _, _, _, rfl, rfl, hf⟩, rfl, rfl⟩)
  | @report rows row₀ job? report hid hrow₀ hp =>
    cases hr'
    obtain ⟨row, hrow, rfl | ⟨rfl, rfl⟩⟩ := hmodify job? rows _ _ hget'
    · exact .inl ⟨_, hrow, .same _ _⟩
    · cases hrow₀.symm.trans hrow
      exact .inl ⟨_, hrow, .report report hid rfl hp⟩
  | rearm job? rows key now =>
    cases hr'
    obtain ⟨row, hrow, rfl | ⟨rfl, rfl⟩⟩ := hmodify job? rows _ _ hget'
    · exact .inl ⟨_, hrow, .same _ _⟩
    · exact .inl ⟨_, hrow, .rearm _ now⟩
  | cascade job? rows key =>
    cases hr'
    obtain ⟨row, hrow, rfl | ⟨rfl, rfl⟩⟩ := hmodify job? rows _ _ hget'
    · exact .inl ⟨_, hrow, .same _ _⟩
    · exact .inl ⟨_, hrow, .cascade _⟩
  | remove | prune => cases hr'

/-- Nothing but a first fan-out makes a row pending, and a settled row stays as it is. -/
theorem ViewStep.row_status {id : JobId} {l : Label V} {v v' : View V} (h : ViewStep id l v v')
    (hl : ¬ v.Opens id l) {childKey : String} {row' : MemFlowChild V}
    (hrow' : v'.row? childKey = some row') :
    ∃ row, v.row? childKey = some row ∧
      (row'.status = row.status ∨ row.status = .pending ∧ row'.status ≠ .pending) := by
  rcases h.row hrow' with ⟨row, hrow, hstep⟩ | ⟨row, hrow, hp, rfl, _⟩ | ⟨hopens, _⟩
  · refine ⟨row, hrow, ?_⟩
    cases hstep with
    | same | rearm | cascade => exact .inl rfl
    | report report _ _ hp => exact .inr ⟨hp, toChildStatus_ne_pending _⟩
  · refine ⟨row, hrow, .inr ⟨hp, ?_⟩⟩
    rw [markRow_status, if_pos hp]
    decide
  · exact absurd hopens hl

theorem ViewStep.waits {id : JobId} {l : Label V} {v v' : View V} (h : ViewStep id l v v')
    (hl : ¬ v.Opens id l) {childKey : String} (hw : v'.Waits childKey) : v.Waits childKey := by
  rw [View.waits_iff] at hw ⊢
  obtain ⟨row', hrow', hp⟩ := hw
  obtain ⟨row, hrow, heq | ⟨_, hne⟩⟩ := h.row_status hl hrow'
  · exact ⟨row, hrow, heq.symm.trans hp⟩
  · exact absurd hp hne

/-! ## What an operation does to them -/

/-- The invariant rule for operations that do not open the manifest of `id`: they leave it as it is
unless the job goes, and keep what the steps other than an opening keep. -/
theorem exec_unopened {s : Store V} (h : FlowInv Covers s) (now : Millis) (op : Op V) {id : JobId}
    (hop : (manifest? s id).isSome ∨
      ∀ token failFast children, op ≠ .ack id token (.fanOut failFast children))
    {I : View V → Prop}
    (hstep : ∀ l v v', Allows now op l → ¬ v.Opens id l → ViewStep id l v v' → I v → I v')
    (hI : I (s.toCore.view id)) :
    ((exec s now op).jobs.get? id = none ∨ manifest? (exec s now op) id = manifest? s id) ∧
      I ((exec s now op).toCore.view id) := by
  let J : View V → Prop := fun v => Booked Covers v ∧
    ((v.job = none ∧ ∃ l, Allows now op l ∧ l.Deletes) ∨ v.manifest? = manifest? s id) ∧ I v
  have hJ : J ((exec s now op).toCore.view id) := by
    refine (exec_does h.keyed now op).view h.keyed id (I := J) ?_ ⟨h.booked id, .inr rfl, hI⟩
    rintro l v v' hl hview _ ⟨hb, hv, hi⟩
    have hopens : ¬ v.Opens id l := by
      rintro ⟨failFast, children, t, job, rfl, hj, hf⟩
      rcases hv with ⟨hnone, _⟩ | hv
      · cases hj.symm.trans hnone
      · rcases hop with hsome | hop
        · rw [← hv, hb.manifest?_isSome hj, hf] at hsome
          cases hsome
        · cases hl
          exact hop _ _ _ rfl
    refine ⟨hb.step covers_accounts hview (hl.fans op.fans_all), ?_, hstep l v v' hl hopens hview hi⟩
    rcases hv with ⟨hv, l', hl', hdel⟩ | hv
    · exact .inl ⟨hview.absent (fun hins => hl.not_deletes hins hl' hdel) hv, l', hl', hdel⟩
    · rcases hview.manifest? hopens with heq | ⟨hnone, hdel⟩
      · exact .inr (heq.trans hv)
      · exact .inl ⟨hnone, l, hl, hdel⟩
  exact ⟨hJ.2.1.imp_left (·.1), hJ.2.2⟩

theorem exec_manifest? {s : Store V} (h : FlowInv Covers s) (now : Millis) (op : Op V) {id : JobId}
    (hop : (manifest? s id).isSome ∨
      ∀ token failFast children, op ≠ .ack id token (.fanOut failFast children)) :
    (exec s now op).jobs.get? id = none ∨ manifest? (exec s now op) id = manifest? s id :=
  (exec_unopened h now op hop (I := fun _ => True) (fun _ _ _ _ _ _ h => h) trivial).1

/-- Nor does such an operation make a row pending. -/
theorem exec_waits {s : Store V} (h : FlowInv Covers s) (now : Millis) (op : Op V) {id : JobId}
    (hop : (manifest? s id).isSome ∨
      ∀ token failFast children, op ≠ .ack id token (.fanOut failFast children))
    {childKey : String} (hw : Waits (exec s now op) id childKey) : Waits s id childKey :=
  (exec_unopened h now op hop (I := fun v => v.Waits childKey → Waits s id childKey)
    (fun _ _ _ _ hl hstep hv hw => hv (hstep.waits hl hw)) fun hw => hw).2 hw

/-- A settled row keeps its status. -/
theorem exec_settled {s : Store V} (h : FlowInv Covers s) (now : Millis) (op : Op V) {id : JobId}
    (hm : (manifest? s id).isSome) {childKey : String} {status : ChildStatus}
    (hp : status ≠ .pending)
    (hrow : ∀ row, s.row? id childKey = some row → row.status = status) {row' : MemFlowChild V}
    (hrow' : (exec s now op).row? id childKey = some row') : row'.status = status := by
  refine (exec_unopened h now op (.inl hm)
    (I := fun v => ∀ row, v.row? childKey = some row → row.status = status) ?_ hrow).2 row' hrow'
  intro l v v' _ hl hstep hv row' hrow'
  obtain ⟨row, hrow, heq | ⟨hpending, _⟩⟩ := hstep.row_status hl hrow'
  · exact heq.trans (hv row hrow)
  · exact absurd ((hv row hrow).symm.trans hpending) hp

/-- A first fan-out persists its children. The parent is gone right away only if the ack also ended
and pruned it. -/
theorem ackFanOut_manifest? {s : Store V} (hk : s.toCore.Keyed) {job : MemJob V} (now : Millis)
    (failFast : Bool) {children : List (FlowChildSpec V)} (hd : DistinctKeys children)
    (hj : s.jobs.get? job.id = some job) (ha : job.state = .active) (hf : job.flow = none) :
    (ackFanOut s now (clearLock job) failFast children).jobs.get? job.id = none ∨
      manifest? (ackFanOut s now (clearLock job) failFast children) job.id = some children := by
  have hpark : Step s.toCore (.park job.id failFast children now)
      (s.toCore.park job failFast children now) := .park failFast children now hj ha
  have hk' := hpark.keyed hk
  have hpersisted : ((s.toCore.park job failFast children now).view job.id).manifest? =
      some children := by
    rw [View.manifest?, Core.view, Core.park, putJob_flowChildren, Core.fanOutRows, hf]
    simp [specsOf_newRows hd]
  let I : View V → Prop := fun v => v.job = none ∨ v.manifest? = some children
  have hstep : ∀ {l : Label V} {d : Core V}, Step (s.toCore.park job failFast children now) l d →
      (∀ failFast children now, l ≠ .park job.id failFast children now) → I (d.view job.id) := by
    intro l d h hl
    have hopens : ¬ ((s.toCore.park job failFast children now).view job.id).Opens job.id l := by
      rintro ⟨_, _, _, _, hlabel, _⟩
      exact hl _ _ _ hlabel
    rcases (h.view hk' job.id).manifest? hopens with heq | ⟨hnone, _⟩
    · exact .inr (heq.trans hpersisted)
    · exact .inl hnone
  rcases ackFanOut_cases hk now failFast children hj ha with ⟨_, d, hfin, hdoes⟩ | ⟨_, seq, hmove⟩ |
    ⟨_, _, heq⟩
  · exact prunes_view (hfin.keyed hk') hdoes (.inl rfl) (hstep hfin fun _ _ _ h => by cases h)
  · exact hstep hmove fun _ _ _ h => by cases h
  · refine .inr ?_
    have hview : manifest? (ackFanOut s now (clearLock job) failFast children) job.id =
        ((s.toCore.park job failFast children now).view job.id).manifest? := by
      rw [← heq]
      rfl
    exact hview.trans hpersisted

/-! ## The ledger of landed manifests -/

theorem manifest?_of_absent {s : Store V} (h : FlowInv Covers s) {id : JobId}
    (hj : s.jobs.get? id = none) : manifest? s id = none := by
  unfold manifest?
  cases hr : s.flowChildren.get? id with
  | none => rfl
  | some rows =>
    obtain ⟨job, _, hj', _⟩ := (h.booked id).owned rows hr
    cases hj.symm.trans hj'

theorem waits_manifest? {s : Store V} {id : JobId} {childKey : String} (h : Waits s id childKey) :
    (manifest? s id).isSome := by
  obtain ⟨rows, _, hr, _⟩ := h
  have hr : s.flowChildren.get? id = some rows := hr
  rw [manifest?, hr]
  rfl

structure Ledger (V : Type) where
  store : Store V
  manifests : JsMap JobId (List (FlowChildSpec V))
  deriving DecidableEq

/-- The manifest an operation lands: an accepted `FanOut` ack of a parent without one. -/
def landing (s : Store V) (now : Millis) : Op V → Option (JobId × List (FlowChildSpec V))
  | .ack id token (.fanOut failFast children) =>
    match (ack s now id token (.fanOut failFast children)).1 with
    | .ok _ => if (manifest? s id).isSome then none else some (id, children)
    | .error _ => none
  | _ => none

/-- A landing is an accepted ack of a parent without a manifest. -/
theorem landing_ack {s : Store V} (h : FlowInv Covers s) {now : Millis} {op : Op V} {id : JobId}
    {children : List (FlowChildSpec V)} (hl : landing s now op = some (id, children)) :
    ∃ token failFast job, op = .ack id token (.fanOut failFast children) ∧
      s.jobs.get? id = some job ∧ job.state = .active ∧ job.flow = none ∧
      exec s now op = ackFanOut s now (clearLock job) failFast children := by
  unfold landing at hl
  split at hl
  · split at hl
    · rename_i id' token failFast children' _ _ hok
      split at hl
      · cases hl
      · rename_i hm
        cases hl
        obtain ⟨job, hj, ha, _, heq⟩ := ack_ok hok
        have hflow : job.flow = none := by
          rw [← Option.not_isSome_iff_eq_none, ← (h.booked id).manifest?_isSome hj]
          exact hm
        exact ⟨token, failFast, job, rfl, hj, ha, hflow, heq⟩
    · cases hl
  · cases hl

/-- Otherwise the operation changes nothing, or does not open the manifest of `id`. -/
theorem unlanded {s : Store V} {now : Millis} {op : Op V} {id : JobId}
    (hl : ∀ children, landing s now op ≠ some (id, children)) :
    exec s now op = s ∨ (manifest? s id).isSome ∨
      ∀ token failFast children, op ≠ .ack id token (.fanOut failFast children) := by
  by_cases hop : ∃ token failFast children, op = .ack id token (.fanOut failFast children)
  · obtain ⟨token, failFast, children, rfl⟩ := hop
    cases hres : (ack s now id token (.fanOut failFast children)).1 with
    | error e => exact .inl (ack_error hres)
    | ok u =>
      refine .inr (.inl ?_)
      by_contra hm
      apply hl children
      simp only [landing, hres, if_neg hm]
  · exact .inr (.inr fun token failFast children heq => hop ⟨token, failFast, children, heq⟩)

def Ledger.exec (s : Ledger V) (now : Millis) (op : Op V) : Ledger V where
  store := Memory.exec s.store now op
  manifests :=
    match landing s.store now op with
    | some (id, children) => s.manifests.set id children
    | none => s.manifests

/-- The id of a deleted flow parent is given to a new job. -/
def Ledger.Reuses (s t : Ledger V) : Prop :=
  ∃ id, (s.manifests.get? id).isSome ∧ s.store.jobs.get? id = none ∧
    (t.store.jobs.get? id).isSome

/-- A fan-out is of children `ok`. -/
def Op.FansOut (ok : JobId → List (FlowChildSpec V) → Prop) : Op V → Prop
  | .ack id _ (.fanOut _ children) => ok id children
  | _ => True

/-- The store has exactly the landed manifests of the parents that exist. -/
structure LedgerInv (ok : JobId → List (FlowChildSpec V) → Prop) (s : Ledger V) : Prop where
  flow : FlowInv Covers s.store
  persisted : ∀ id, s.store.jobs.get? id = none ∨ manifest? s.store id = s.manifests.get? id
  built : ∀ id children, s.manifests.get? id = some children → ok id children

section Ledger

variable {ok : JobId → List (FlowChildSpec V) → Prop} {s t : Ledger V}

def Landed (s : Ledger V) (id : JobId) : Prop := (s.manifests.get? id).isSome

theorem LedgerInv.landed_iff (h : LedgerInv ok s) {id : JobId} {job : MemJob V}
    (hj : s.store.jobs.get? id = some job) : Landed s id ↔ job.flow.isSome := by
  rcases h.persisted id with hnone | heq
  · cases hj.symm.trans hnone
  · rw [Landed, ← heq]
    exact Eq.to_iff (congrArg (· = true) ((h.flow.booked id).manifest?_isSome hj))

theorem LedgerInv.landed_of_manifest? (h : LedgerInv ok s) {id : JobId}
    (hm : (manifest? s.store id).isSome) : Landed s id := by
  rcases h.persisted id with hj | heq
  · rw [manifest?_of_absent h.flow hj] at hm
    cases hm
  · rwa [Landed, ← heq]

/-- What is landed is the manifest of an accepted ack of a parent that had none. -/
theorem LedgerInv.landing (h : LedgerInv ok s) {now : Millis} {op : Op V} {id : JobId}
    {children : List (FlowChildSpec V)} (hl : landing s.store now op = some (id, children)) :
    ∃ token failFast job, op = .ack id token (.fanOut failFast children) ∧
      s.store.jobs.get? id = some job ∧ job.state = .active ∧ job.flow = none ∧
      s.manifests.get? id = none ∧
      Memory.exec s.store now op = ackFanOut s.store now (clearLock job) failFast children := by
  obtain ⟨token, failFast, job, hop, hj, ha, hflow, heq⟩ := landing_ack h.flow hl
  refine ⟨token, failFast, job, hop, hj, ha, hflow, ?_, heq⟩
  rw [← Option.not_isSome_iff_eq_none]
  exact fun hsome => by
    rw [← Landed, h.landed_iff hj, hflow] at hsome
    cases hsome

theorem LedgerInv.manifests_exec (h : LedgerInv ok s) (now : Millis) (op : Op V) {id : JobId}
    {children : List (FlowChildSpec V)} (hm : s.manifests.get? id = some children) :
    (s.exec now op).manifests.get? id = some children := by
  unfold Ledger.exec
  simp only
  split
  · rename_i id' children' hl
    obtain ⟨_, _, _, _, _, _, _, hnone, _⟩ := h.landing hl
    have hne : id ≠ id' := by
      rintro rfl
      cases hm.symm.trans hnone
    rw [JsMap.get?_set, if_neg hne, hm]
  · exact hm

theorem LedgerInv.landed_exec (h : LedgerInv ok s) (now : Millis) (op : Op V) {id : JobId}
    (hl : Landed s id) : Landed (s.exec now op) id := by
  obtain ⟨children, hm⟩ := Option.isSome_iff_exists.mp hl
  exact Option.isSome_iff_exists.mpr ⟨children, h.manifests_exec now op hm⟩

theorem not_reuses (h : ¬ s.Reuses t) {id : JobId} (hl : Landed s id)
    (hj : s.store.jobs.get? id = none) : t.store.jobs.get? id = none := by
  rw [← Option.not_isSome_iff_eq_none]
  exact fun hs => h ⟨id, hl, hj, hs⟩

/-- A row of a landed manifest does not become pending again. -/
theorem LedgerInv.waits_exec (h : LedgerInv ok s) {now : Millis} {op : Op V}
    (hr : ¬ s.Reuses (s.exec now op)) (h' : FlowInv Covers (s.exec now op).store) {id : JobId}
    {childKey : String} (hl : Landed s id) (hw : Waits (s.exec now op).store id childKey) :
    Waits s.store id childKey := by
  rcases h.persisted id with hj | heq
  · have hgone := waits_manifest? hw
    rw [manifest?_of_absent h' (not_reuses hr hl hj)] at hgone
    cases hgone
  · rw [Landed, ← heq] at hl
    exact exec_waits h.flow now op (.inl hl) hw

/-- An operation that lands no manifest of `id` leaves what is persisted, unless the job goes. -/
theorem LedgerInv.exec_same (h : LedgerInv ok s) (now : Millis) (op : Op V) {id : JobId}
    (hl : ∀ children, Memory.landing s.store now op ≠ some (id, children)) :
    (Memory.exec s.store now op).jobs.get? id = none ∨
      manifest? (Memory.exec s.store now op) id = manifest? s.store id := by
  rcases unlanded hl with heq | hop
  · exact .inr (by rw [heq])
  · exact exec_manifest? h.flow now op hop

theorem LedgerInv.exec (hok : ∀ id children, ok id children → DistinctKeys children)
    (h : LedgerInv ok s) (now : Millis) (op : Op V) (hfans : op.FansOut ok)
    (hreuse : ¬ s.Reuses (s.exec now op)) : LedgerInv ok (s.exec now op) := by
  have hflow : FlowInv Covers (s.exec now op).store :=
    h.flow.exec covers_accounts now op.fans_all
  have hsame : ∀ id, (∀ children, Memory.landing s.store now op ≠ some (id, children)) →
      (s.exec now op).store.jobs.get? id = none ∨
        manifest? (s.exec now op).store id = s.manifests.get? id := by
    intro id hl
    rcases h.persisted id with hj | heq
    · by_cases hlanded : Landed s id
      · exact .inl (not_reuses hreuse hlanded hj)
      · rw [Landed, Option.not_isSome_iff_eq_none] at hlanded
        rcases h.exec_same now op hl with hnone | heq
        · exact .inl hnone
        · exact .inr (heq.trans ((manifest?_of_absent h.flow hj).trans hlanded.symm))
    · rw [← heq]
      exact h.exec_same now op hl
  cases hland : Memory.landing s.store now op with
  | none =>
    have hman : (s.exec now op).manifests = s.manifests := by
      unfold Ledger.exec
      rw [hland]
    refine ⟨hflow, fun id => ?_, fun id children hm => h.built id children ?_⟩
    · rw [hman]
      exact hsame id fun children heq => by cases hland.symm.trans heq
    · rwa [← hman]
  | some landed =>
    obtain ⟨id₀, children₀⟩ := landed
    obtain ⟨token, failFast, job, rfl, hj, ha, hf, hnone, heq⟩ := h.landing hland
    have hman : (s.exec now (.ack id₀ token (.fanOut failFast children₀))).manifests =
        s.manifests.set id₀ children₀ := by
      unfold Ledger.exec
      rw [hland]
    refine ⟨hflow, fun id => ?_, fun id children hm => ?_⟩
    · rw [hman, JsMap.get?_set]
      by_cases hid : id = id₀
      · obtain rfl := h.flow.keyed _ _ hj
        have hpersist := ackFanOut_manifest? h.flow.keyed now failFast (hok _ _ hfans) hj ha hf
        rw [if_pos hid, hid]
        rw [← heq] at hpersist
        exact hpersist
      · rw [if_neg hid]
        refine hsame id fun children hl => ?_
        cases hland.symm.trans hl
        exact hid rfl
    · rw [hman, JsMap.get?_set] at hm
      split at hm
      · rename_i hid
        cases hm
        exact hid ▸ hfans
      · exact h.built id children hm

theorem LedgerInv.empty : LedgerInv ok (⟨Store.empty, ∅⟩ : Ledger V) where
  flow := .empty Covers
  persisted := fun _ => .inl rfl
  built := fun _ _ hm => by cases hm

end Ledger

end EffectMq.Memory
