import EffectMq.Flow
import EffectMq.MemoryJobStore.Cancelled

/-! # Cascades and orphaned children

The fan-out path of `processJob`, `reconcileChild` and `cascadeChildren`, one store call at a time,
over a parent and a child store. A procedure whose call got no answer repeats it, and may be abandoned
anywhere: `retryStore` gives up in the end, and workers stop. Reports are of children that have ended
so. Children are neither retried nor deleted, and their ids enter the child store in no other way.

`Caught` is the invariant: a child whose cancelled row counts as cascaded is stopped, or a reconcile
that may have enqueued it is still about to look at the parent again. Two steps break it (`Safe`): a
fan-out that enqueues such a child, and a reconcile abandoned before it cancels one.
-/

namespace EffectMq.Worker
set_option autoImplicit false
set_option maxHeartbeats 250000

open Transition Memory

variable {V : Type}

/-! ## State -/

inductive FanOutStage (V : Type)
  | ack
  | check
  | enqueue (rest : List (FlowChildSpec V))

inductive ReconcileStage (V : Type)
  | getChild
  | before
  | enqueue
  | after
  | cancel
  | report (outcome : TerminalState) (exit : Option V) (failedReason : Option String)

/-- A procedure of a worker, at its next store call. -/
inductive Proc (V : Type)
  | idle
  | fanOut (id : JobId) (token : String) (failFast : Bool) (children : List (FlowChildSpec V))
      (stage : FanOutStage V)
  | reconcile (flowId : JobId) (child : FlowChildSpec V) (stage : ReconcileStage V)
  | cascade (flowId : JobId) (children : List CascadeChild) (done : List String)

/-- `handed` is all work that sweeps have handed out. -/
structure Fleet (V : Type) where
  parent : Ledger V
  child : Store V
  handed : FlowSweepWork V
  procs : ℕ → Proc V

/-! ## Store calls -/

/-- The stores after a call, and where the procedure goes on once it has the answer. -/
structure Called (V : Type) where
  parent : Ledger V
  child : Store V
  next : Proc V

def enqueueRest (id : JobId) (token : String) (failFast : Bool)
    (children rest : List (FlowChildSpec V)) : Proc V :=
  if rest.isEmpty then .idle else .fanOut id token failFast children (.enqueue rest)

/-- Children of a store whose layer the worker does not hold are left to other workers. -/
def fanOutCall (childKey : String) (s : Fleet V) (now : Millis) (known : Bool) (id : JobId)
    (token : String) (failFast : Bool) (children : List (FlowChildSpec V)) :
    FanOutStage V → Called V
  | .ack =>
    { parent := s.parent.exec now (.ack id token (.fanOut failFast children))
      child := s.child
      next := match (ack s.parent.store now id token (.fanOut failFast children)).1 with
        | .ok _ => .fanOut id token failFast children .check
        | .error (.jobStoreError _) => .fanOut id token failFast children .ack
        | .error _ => .idle }
  | .check =>
    { parent := s.parent
      child := s.child
      next := if isParked s.parent.store.toCore id then enqueueRest id token failFast children children
        else .idle }
  | .enqueue [] => ⟨s.parent, s.child, .idle⟩
  | .enqueue (spec :: rest) =>
    { parent := s.parent
      child := if known = true ∧ spec.storeKey = childKey then
          exec s.child now (.enqueue spec.request .counter)
        else s.child
      next := enqueueRest id token failFast children rest }

def cancelChild (child : Store V) (now : Millis) (id : Option JobId) : Store V :=
  match id with
  | none => child
  | some id => exec child now (.cancel id)

def reconcileCall (s : Fleet V) (now : Millis) (flowId : JobId) (child : FlowChildSpec V) :
    ReconcileStage V → Called V
  | .getChild =>
    { parent := s.parent
      child := s.child
      next := match child.request.id with
        | none => .idle
        | some id =>
          match getJob s.child id with
          | none => .reconcile flowId child .before
          | some existing =>
            match existing.state.terminal? with
            | none => .idle
            | some outcome =>
              .reconcile flowId child (.report outcome existing.exit existing.failedReason) }
  | .before =>
    { parent := s.parent
      child := s.child
      next := if isParked s.parent.store.toCore flowId then .reconcile flowId child .enqueue
        else .idle }
  | .enqueue =>
    { parent := s.parent
      child := exec s.child now (.enqueue child.request .counter)
      next := .reconcile flowId child .after }
  | .after =>
    { parent := s.parent
      child := s.child
      next := if isParked s.parent.store.toCore flowId then .idle
        else .reconcile flowId child .cancel }
  | .cancel => ⟨s.parent, cancelChild s.child now child.request.id, .idle⟩
  | .report outcome exit failedReason =>
    { parent := s.parent.exec now
        (.recordChildResults [⟨flowId, child.childKey, outcome, exit, failedReason⟩])
      child := s.child
      next := .idle }

def cascadeRest (flowId : JobId) (children : List CascadeChild) (done : List String) : Proc V :=
  if children.isEmpty && done.isEmpty then .idle else .cascade flowId children done

/-- A vanished or already terminal child is cancelled enough. -/
def cascadeCall (childKey : String) (s : Fleet V) (now : Millis) (known : Bool) (flowId : JobId)
    (done : List String) : List CascadeChild → Called V
  | [] => ⟨s.parent.exec now (.markChildrenCascaded flowId done), s.child, .idle⟩
  | child :: rest =>
    if known = true then
      { parent := s.parent
        child := if child.storeKey = childKey then cancelChild s.child now child.childJobId
          else s.child
        next := cascadeRest flowId rest (done ++ [child.childKey]) }
    else ⟨s.parent, s.child, cascadeRest flowId rest done⟩

def Fleet.call (childKey : String) (s : Fleet V) (now : Millis) (known : Bool) :
    Proc V → Called V
  | .idle => ⟨s.parent, s.child, .idle⟩
  | .fanOut id token failFast children stage =>
    fanOutCall childKey s now known id token failFast children stage
  | .reconcile flowId child stage => reconcileCall s now flowId child stage
  | .cascade flowId children done => cascadeCall childKey s now known flowId done children

/-! ## Events -/

inductive FleetEvent (V : Type)
  | parent (now : Millis) (op : Op V)
  | child (now : Millis) (op : Op V)
  | sweep (now : Millis) (options : FlowSweepOptions)
  | start (p : ℕ) (proc : Proc V)
  | call (p : ℕ) (now : Millis) (known answered : Bool)
  | stop (p : ℕ)

def Fleet.setProc (s : Fleet V) (p : ℕ) (proc : Proc V) : Fleet V :=
  { s with procs := Function.update s.procs p proc }

def appendWork (a b : FlowSweepWork V) : FlowSweepWork V :=
  ⟨a.reconcile ++ b.reconcile, a.cascade ++ b.cascade⟩

def fleetAct (childKey : String) (s : Fleet V) : FleetEvent V → Fleet V
  | .parent now op => { s with parent := s.parent.exec now op }
  | .child now op => { s with child := exec s.child now op }
  | .sweep now options =>
    { s with
      parent := s.parent.exec now (.flowSweepWork options)
      handed := appendWork s.handed (flowSweepWork s.parent.store now options).1 }
  | .start p proc => s.setProc p proc
  | .call p now known answered =>
    let called := s.call childKey now known (s.procs p)
    { s with parent := called.parent, child := called.child }.setProc p
      (if answered then called.next else s.procs p)
  | .stop p => s.setProc p .idle

/-- The outcome a report carries is that of its child. -/
def Genuine (parentKey childKey : String) (s : Fleet V) (report : FlowChildReport V) : Prop :=
  ∀ children spec, s.parent.manifests.get? report.flowId = some children → spec ∈ children →
    spec.childKey = report.childKey → spec.storeKey = childKey →
    ∃ job, s.child.jobs.get? (childJobId parentKey report.flowId report.childKey) = some job ∧
      job.state.terminal? = some report.outcome

/-- Procedures start with what `buildSpecs` built or a sweep handed out; a worker reconciles the
children whose store layer it holds. -/
def Startable (parentKey childKey : String) (s : Fleet V) : Proc V → Prop
  | .fanOut id _ _ children .ack => Built parentKey id children
  | .reconcile flowId child .getChild =>
    child.storeKey = childKey ∧ (flowId, child) ∈ ungroup s.handed.reconcile
  | .cascade flowId children [] => (flowId, children) ∈ s.handed.cascade
  | _ => False

def FleetEvent.Legal (parentKey childKey : String) (s : Fleet V) : FleetEvent V → Prop
  | .parent _ op =>
    op.FansOut (Built parentKey) ∧ (∀ flowId keys, op ≠ .markChildrenCascaded flowId keys) ∧
      ∀ report ∈ op.reports, Genuine parentKey childKey s report
  | .child now op => ∀ flowId key, op ≠ .retry (childJobId parentKey flowId key) ∧
      (s.child.jobs.get? (childJobId parentKey flowId key) = none →
        (exec s.child now op).jobs.get? (childJobId parentKey flowId key) = none)
  | .start p proc => s.procs p = .idle ∧ Startable parentKey childKey s proc
  | _ => True

/-- No child is deleted, and no id of a deleted flow parent is reused. -/
def FleetStep (parentKey childKey : String) (s : Fleet V) (e : FleetEvent V) (t : Fleet V) : Prop :=
  e.Legal parentKey childKey s ∧ t = fleetAct childKey s e ∧ ¬ s.parent.Reuses t.parent ∧
    ∀ flowId key, (s.child.jobs.get? (childJobId parentKey flowId key)).isSome →
      (t.child.jobs.get? (childJobId parentKey flowId key)).isSome

def FleetStart (s : Fleet V) : Prop :=
  s.parent = ⟨Store.empty, ∅⟩ ∧ s.child = Store.empty ∧ s.handed = ⟨[], []⟩ ∧
    ∀ p, s.procs p = .idle

/-! ## Orphans -/

/-- A reconcile that may have enqueued the child and has not yet looked at the parent again. -/
def Proc.Driving (flowId : JobId) (key : String) : Proc V → Prop
  | .reconcile flowId' child .enqueue | .reconcile flowId' child .after
  | .reconcile flowId' child .cancel => flowId' = flowId ∧ child.childKey = key
  | _ => False

/-- A cascade that is done with the child and has not yet marked it. -/
def Proc.Passed (flowId : JobId) (key : String) : Proc V → Prop
  | .cascade flowId' _ done => flowId' = flowId ∧ key ∈ done
  | _ => False

/-- No cascade will cancel the child any more. -/
def Lost (childKey : String) (s : Fleet V) (flowId : JobId) (key : String) : Prop :=
  ∃ row, s.parent.store.row? flowId key = some row ∧ row.storeKey = childKey ∧
    row.status = .cancelled ∧ (row.cascaded = true ∨ ∃ p, (s.procs p).Passed flowId key)

def Caught (parentKey childKey : String) (s : Fleet V) : Prop :=
  ∀ flowId key, Lost childKey s flowId key →
    Stopped s.child (childJobId parentKey flowId key) ∨ ∃ p, (s.procs p).Driving flowId key

/-- The steps that may not leave a child behind. -/
def FleetEvent.Safe (parentKey childKey : String) (s : Fleet V) : FleetEvent V → Prop
  | .call p _ known _ => ∀ id token failFast children spec rest,
      s.procs p = .fanOut id token failFast children (.enqueue (spec :: rest)) → known = true →
      spec.storeKey = childKey →
      s.child.jobs.get? (childJobId parentKey id spec.childKey) = none →
      ¬ Lost childKey s id spec.childKey
  | .stop p => ∀ flowId key, (s.procs p).Driving flowId key → Lost childKey s flowId key →
      Stopped s.child (childJobId parentKey flowId key)
  | _ => True

/-- When no procedure is under way, the child of a cancelled and cascaded row is stopped. -/
def NoOrphan (childKey : String) (s : Fleet V) : Prop :=
  (∀ p, s.procs p = .idle) → ∀ flowId key row id, s.parent.store.row? flowId key = some row →
    row.storeKey = childKey → row.status = .cancelled → row.cascaded = true →
    row.spec.id = some id → Stopped s.child id

/-! ## The invariant -/

def OfManifest (s : Ledger V) (flowId : JobId) (spec : FlowChildSpec V) : Prop :=
  ∃ children, s.manifests.get? flowId = some children ∧ spec ∈ children

/-- A row of the flow that is cancelled for as long as it exists. -/
def RowCancelled (s : Ledger V) (flowId : JobId) (key : String) : Prop :=
  Landed s flowId ∧ ∀ row, s.store.row? flowId key = some row → row.status = .cancelled

/-- An item of cascade work. -/
def CascadeOk (s : Ledger V) (flowId : JobId) (child : CascadeChild) : Prop :=
  RowCancelled s flowId child.childKey ∧ ∃ spec, OfManifest s flowId spec ∧
    child = ⟨spec.childKey, spec.storeKey, spec.request.id⟩

def ChildEnded (parentKey : String) (child : Store V) (flowId : JobId) (key : String)
    (outcome : TerminalState) : Prop :=
  ∃ job, child.jobs.get? (childJobId parentKey flowId key) = some job ∧
    job.state.terminal? = some outcome

def ProcOk (parentKey childKey : String) (parent : Ledger V) (child : Store V) : Proc V → Prop
  | .idle => True
  | .fanOut id _ _ children stage =>
    Built parentKey id children ∧ ∀ rest, stage = .enqueue rest → rest ⊆ children
  | .reconcile flowId spec stage =>
    OfManifest parent flowId spec ∧ spec.storeKey = childKey ∧
      ∀ outcome exit reason, stage = .report outcome exit reason →
        ChildEnded parentKey child flowId spec.childKey outcome
  | .cascade flowId children done =>
    (∀ c ∈ children, CascadeOk parent flowId c) ∧ ∀ key ∈ done, RowCancelled parent flowId key

structure FleetInv (parentKey childKey : String) (s : Fleet V) : Prop where
  parent : LedgerInv (Built parentKey) s.parent
  rows : s.parent.store.toCore.RowsKeyed
  child : FlowInv Covers s.child
  reconcile : ∀ flowId spec, (flowId, spec) ∈ ungroup s.handed.reconcile →
    OfManifest s.parent flowId spec
  cascade : ∀ flowId c, (flowId, c) ∈ ungroup s.handed.cascade → CascadeOk s.parent flowId c
  procs : ∀ p, ProcOk parentKey childKey s.parent s.child (s.procs p)
  /-- A cancelled row of a parked parent was reported. -/
  reported : ∀ flowId key row, ¬ (s.parent.store.toCore.view flowId).NotParked →
    s.parent.store.row? flowId key = some row → row.storeKey = childKey →
    row.status = .cancelled → ∃ outcome, ChildEnded parentKey s.child flowId key outcome

theorem setProc_procs (s : Fleet V) (p q : ℕ) (proc : Proc V) :
    (s.setProc p proc).procs q = if q = p then proc else s.procs q := by
  simp [Fleet.setProc, Function.update_apply]

theorem OfManifest.built {parentKey childKey : String} {s : Fleet V}
    (h : FleetInv parentKey childKey s) {flowId : JobId} {spec : FlowChildSpec V}
    (hm : OfManifest s.parent flowId spec) :
    spec.request.id = some (childJobId parentKey flowId spec.childKey) := by
  obtain ⟨children, hman, hmem⟩ := hm
  exact (h.parent.built flowId children hman).id spec hmem

/-- The spec a row was created from is the one of its key in the manifest. -/
theorem FleetInv.row_ofManifest {parentKey childKey : String} {s : Fleet V}
    (h : FleetInv parentKey childKey s) {flowId : JobId} {key : String} {row : MemFlowChild V}
    (hrow : s.parent.store.row? flowId key = some row) :
    OfManifest s.parent flowId (specOf row) ∧ row.childKey = key := by
  exact ⟨h.parent.row_spec hrow, (h.rows.row? hrow).2⟩

theorem OfManifest.unique {parentKey childKey : String} {s : Fleet V}
    (h : FleetInv parentKey childKey s) {flowId : JobId} {a b : FlowChildSpec V}
    (ha : OfManifest s.parent flowId a) (hb : OfManifest s.parent flowId b)
    (hkey : a.childKey = b.childKey) : a = b := by
  obtain ⟨children, hm, ha⟩ := ha
  obtain ⟨children', hm', hb⟩ := hb
  cases hm.symm.trans hm'
  exact List.inj_on_of_nodup_map (h.parent.built flowId children hm).keys ha hb hkey

/-! ## The parent store takes an operation -/

theorem OfManifest.exec {ok : JobId → List (FlowChildSpec V) → Prop} {s : Ledger V}
    (h : LedgerInv ok s) (now : Millis) (op : Op V) {flowId : JobId} {spec : FlowChildSpec V}
    (hm : OfManifest s flowId spec) : OfManifest (s.exec now op) flowId spec := by
  obtain ⟨children, hman, hmem⟩ := hm
  exact ⟨children, h.manifests_exec now op hman, hmem⟩

theorem RowCancelled.exec {ok : JobId → List (FlowChildSpec V) → Prop} {s : Ledger V}
    (h : LedgerInv ok s) {now : Millis} {op : Op V} (h' : LedgerInv ok (s.exec now op))
    (hr : ¬ s.Reuses (s.exec now op)) {flowId : JobId} {key : String}
    (hc : RowCancelled s flowId key) : RowCancelled (s.exec now op) flowId key :=
  ⟨h.landed_exec now op hc.1, fun _ hrow' =>
    h.settled_exec h'.flow hr hc.1 (by decide) hc.2 hrow'⟩

theorem CascadeOk.exec {ok : JobId → List (FlowChildSpec V) → Prop} {s : Ledger V}
    (h : LedgerInv ok s) {now : Millis} {op : Op V} (h' : LedgerInv ok (s.exec now op))
    (hr : ¬ s.Reuses (s.exec now op)) {flowId : JobId} {child : CascadeChild}
    (hc : CascadeOk s flowId child) : CascadeOk (s.exec now op) flowId child := by
  obtain ⟨hrow, spec, hm, heq⟩ := hc
  exact ⟨hrow.exec h h' hr, spec, hm.exec h now op, heq⟩

/-- What a procedure relies on stays true when the parent store moves on. -/
theorem ProcOk.parent_exec {parentKey childKey : String} {s : Ledger V} {child : Store V}
    (h : LedgerInv (Built parentKey) s) {now : Millis} {op : Op V}
    (h' : LedgerInv (Built parentKey) (s.exec now op)) (hr : ¬ s.Reuses (s.exec now op))
    {proc : Proc V} (hp : ProcOk parentKey childKey s child proc) :
    ProcOk parentKey childKey (s.exec now op) child proc := by
  cases proc with
  | idle => trivial
  | fanOut => exact hp
  | reconcile flowId spec stage => exact ⟨hp.1.exec h now op, hp.2⟩
  | cascade flowId children done =>
    exact ⟨fun c hc => (hp.1 c hc).exec h h' hr, fun key hk => (hp.2 key hk).exec h h' hr⟩

/-- The child of a row that an operation reports cancelled has ended. -/
theorem FleetInv.reported_exec {parentKey childKey : String} {s : Fleet V}
    (h : FleetInv parentKey childKey s) (now : Millis) {op : Op V}
    (hparent : LedgerInv (Built parentKey) (s.parent.exec now op))
    (hgenuine : ∀ report ∈ op.reports, Genuine parentKey childKey s report) {flowId : JobId}
    {key : String} (hreport : op.Reports flowId key .cancelled) {row' : MemFlowChild V}
    (hrow' : (s.parent.exec now op).store.row? flowId key = some row')
    (hstore : row'.storeKey = childKey) :
    ChildEnded parentKey s.child flowId key .cancelled := by
  have hmanifests : (s.parent.exec now op).manifests = s.parent.manifests := by
    obtain ⟨report, hmem, _⟩ := hreport
    cases op with
    | recordChildResults => rfl
    | _ => cases hmem
  obtain ⟨children, hman, hmem⟩ := hparent.row_spec hrow'
  rw [hmanifests] at hman
  have hkey := ((exec_rowsKeyed h.parent.flow.keyed now op h.rows).row? hrow').2
  obtain ⟨report, hrmem, rfl, rfl, houtcome⟩ := hreport
  rw [← houtcome]
  exact hgenuine report hrmem children _ hman hmem hkey hstore

theorem FleetInv.row_exec {parentKey childKey : String} {s : Fleet V}
    (h : FleetInv parentKey childKey s) {now : Millis} {op : Op V}
    (hparent : LedgerInv (Built parentKey) (s.parent.exec now op))
    (hr : ¬ s.parent.Reuses (s.parent.exec now op)) {flowId : JobId} {key : String}
    (hl : Landed s.parent flowId) {row' : MemFlowChild V}
    (hrow' : (s.parent.exec now op).store.row? flowId key = some row') :
    ∃ row, s.parent.store.row? flowId key = some row ∧ row.storeKey = row'.storeKey := by
  obtain ⟨row, hrow, hspec⟩ := h.parent.row_exec hparent hr h.rows hl hrow'
  exact ⟨row, hrow, congrArg FlowChildSpec.storeKey hspec⟩

theorem FleetInv.landed_of_row {parentKey childKey : String} {s : Fleet V}
    (h : FleetInv parentKey childKey s) {flowId : JobId} {key : String} {row : MemFlowChild V}
    (hrow : s.parent.store.row? flowId key = some row) : Landed s.parent flowId := by
  obtain ⟨children, hman, _⟩ := (h.row_ofManifest hrow).1
  exact Option.isSome_iff_exists.mpr ⟨children, hman⟩

theorem FleetInv.parent_exec {parentKey childKey : String} {s : Fleet V}
    (h : FleetInv parentKey childKey s) (now : Millis) (op : Op V)
    (hfans : op.FansOut (Built parentKey)) (hr : ¬ s.parent.Reuses (s.parent.exec now op))
    (hgenuine : ∀ report ∈ op.reports, Genuine parentKey childKey s report) :
    FleetInv parentKey childKey { s with parent := s.parent.exec now op } := by
  have hparent := h.parent.exec (fun _ _ hb => hb.keys) now op hfans hr
  refine ⟨hparent, exec_rowsKeyed h.parent.flow.keyed now op h.rows, h.child, ?_, ?_, ?_, ?_⟩
  · exact fun flowId spec hmem => (h.reconcile flowId spec hmem).exec h.parent now op
  · exact fun flowId c hmem => (h.cascade flowId c hmem).exec h.parent hparent hr
  · exact fun p => (h.procs p).parent_exec h.parent hparent hr
  · intro flowId key row' hp hrow' hstore hs
    rcases exec_parked_row h.parent.flow now op hp hrow' hs with ⟨hbefore, row, hrow, hs⟩ | hreport
    · obtain ⟨row₀, hrow₀, hstore₀⟩ := h.row_exec hparent hr (h.landed_of_row hrow) hrow'
      cases hrow.symm.trans hrow₀
      exact h.reported flowId key row hbefore hrow (hstore₀.trans hstore) hs
    · exact ⟨_, h.reported_exec now hparent hgenuine hreport hrow' hstore⟩

theorem ChildEnded.stopped {parentKey : String} {child : Store V} {flowId : JobId} {key : String}
    {outcome : TerminalState} (h : ChildEnded parentKey child flowId key outcome) :
    Stopped child (childJobId parentKey flowId key) := by
  obtain ⟨job, hj, ho⟩ := h
  intro job' hj'
  cases hj.symm.trans hj'
  cases hst : job.state <;> rw [hst] at ho <;> first | exact .inl rfl | cases ho

theorem FleetInv.passed {parentKey childKey : String} {s : Fleet V}
    (h : FleetInv parentKey childKey s) {p : ℕ} {flowId : JobId} {key : String}
    (hp : (s.procs p).Passed flowId key) : RowCancelled s.parent flowId key := by
  have hok := h.procs p
  cases hproc : s.procs p with
  | cascade flowId' children done =>
    rw [hproc] at hp hok
    obtain ⟨rfl, hmem⟩ := hp
    exact hok.2 key hmem
  | _ =>
    rw [hproc] at hp
    exact hp.elim

/-- The parent store loses no child: its cascaded rows are those passed, and reported ones. -/
theorem Caught.parent_exec {parentKey childKey : String} {s : Fleet V}
    (h : FleetInv parentKey childKey s) (now : Millis) (op : Op V)
    (hfans : op.FansOut (Built parentKey)) (hr : ¬ s.parent.Reuses (s.parent.exec now op))
    (hgenuine : ∀ report ∈ op.reports, Genuine parentKey childKey s report)
    (hmark : ∀ flowId keys, op = .markChildrenCascaded flowId keys →
      ∃ p, s.procs p = .cascade flowId [] keys)
    (hc : Caught parentKey childKey s) :
    Caught parentKey childKey { s with parent := s.parent.exec now op } := by
  have hparent := h.parent.exec (fun _ _ hb => hb.keys) now op hfans hr
  rintro flowId key ⟨row', hrow', hstore, hs, hlost⟩
  have hpassed : ∀ p, (s.procs p).Passed flowId key → Lost childKey s flowId key := by
    intro p hp
    obtain ⟨row, hrow, hstore'⟩ := h.row_exec hparent hr (h.passed hp).1 hrow'
    exact ⟨row, hrow, hstore'.trans hstore, (h.passed hp).2 row hrow, .inr ⟨p, hp⟩⟩
  rcases hlost with hcas | ⟨p, hp⟩
  · rcases exec_cascaded h.parent.flow.keyed now op hrow' hs hcas with
      ⟨row, hrow, hs, hcas⟩ | hreport | ⟨keys, rfl, hkey⟩
    · obtain ⟨row₀, hrow₀, hstore₀⟩ := h.row_exec hparent hr (h.landed_of_row hrow) hrow'
      cases hrow.symm.trans hrow₀
      exact hc flowId key ⟨row, hrow, hstore₀.trans hstore, hs, .inl hcas⟩
    · exact .inl (h.reported_exec now hparent hgenuine hreport hrow' hstore).stopped
    · obtain ⟨p, hproc⟩ := hmark flowId keys rfl
      refine hc flowId key (hpassed p ?_)
      rw [hproc]
      exact ⟨rfl, hkey⟩
  · exact hc flowId key (hpassed p hp)

/-! ## The child store takes an operation -/

theorem ChildEnded.exec {parentKey : String} {child : Store V} (h : FlowInv Covers child)
    (now : Millis) {op : Op V} {flowId : JobId} {key : String} {outcome : TerminalState}
    (hretry : op ≠ .retry (childJobId parentKey flowId key))
    (hstays : (child.jobs.get? (childJobId parentKey flowId key)).isSome →
      ((Memory.exec child now op).jobs.get? (childJobId parentKey flowId key)).isSome)
    (hc : ChildEnded parentKey child flowId key outcome) :
    ChildEnded parentKey (Memory.exec child now op) flowId key outcome := by
  obtain ⟨job, hj, ho⟩ := hc
  have ht : job.state.isTerminal = true := by
    cases hst : job.state <;> rw [hst] at ho <;> first | rfl | cases ho
  rcases exec_terminal h.keyed h.booked now op hj ht fun _ => hretry with hsame | hnone
  · exact ⟨job, hsame, ho⟩
  · have hsome := hstays (by rw [hj]; rfl)
    rw [hnone] at hsome
    cases hsome

theorem FleetInv.child_exec {parentKey childKey : String} {s : Fleet V}
    (h : FleetInv parentKey childKey s) (now : Millis) (op : Op V)
    (hretry : ∀ flowId key, op ≠ .retry (childJobId parentKey flowId key))
    (hstays : ∀ flowId key, (s.child.jobs.get? (childJobId parentKey flowId key)).isSome →
      ((exec s.child now op).jobs.get? (childJobId parentKey flowId key)).isSome) :
    FleetInv parentKey childKey { s with child := exec s.child now op } := by
  refine ⟨h.parent, h.rows, h.child.exec covers_accounts now op.fans_all, h.reconcile, h.cascade,
    fun p => ?_, ?_⟩
  · have hok := h.procs p
    cases hproc : s.procs p with
    | reconcile flowId spec stage =>
      rw [hproc] at hok
      exact ⟨hok.1, hok.2.1, fun outcome exit reason hst =>
        (hok.2.2 outcome exit reason hst).exec h.child now (hretry _ _) (hstays _ _)⟩
    | idle | fanOut | cascade =>
      rw [hproc] at hok
      exact hok
  · intro flowId key row hp hrow hstore hs
    obtain ⟨outcome, hended⟩ := h.reported flowId key row hp hrow hstore hs
    exact ⟨outcome, hended.exec h.child now (hretry _ _) (hstays _ _)⟩

/-- Nor is a child set going by an operation that does not enqueue it. -/
theorem Caught.child_exec {parentKey childKey : String} {s : Fleet V}
    (h : FleetInv parentKey childKey s) (now : Millis) (op : Op V)
    (hretry : ∀ flowId key, op ≠ .retry (childJobId parentKey flowId key))
    (hnew : ∀ flowId key, Lost childKey s flowId key → (∀ p, ¬ (s.procs p).Driving flowId key) →
      s.child.jobs.get? (childJobId parentKey flowId key) = none →
      (exec s.child now op).jobs.get? (childJobId parentKey flowId key) = none)
    (hc : Caught parentKey childKey s) :
    Caught parentKey childKey { s with child := exec s.child now op } := by
  intro flowId key hlost
  by_cases hp : ∃ p, (s.procs p).Driving flowId key
  · exact .inr hp
  · have hp : ∀ p, ¬ (s.procs p).Driving flowId key := fun p hd => hp ⟨p, hd⟩
    rcases hc flowId key hlost with hs | ⟨p, hd⟩
    · exact .inl (exec_stopped h.child.keyed now op hs (hretry _ _) (hnew flowId key hlost hp))
    · exact absurd hd (hp p)

/-! ## A procedure goes on -/

/-- A procedure may go on from `proc` to `next` without a child getting lost. -/
structure Goes (parentKey childKey : String) (s : Fleet V) (proc next : Proc V) : Prop where
  ok : ProcOk parentKey childKey s.parent s.child next
  passed : ∀ flowId key row, next.Passed flowId key →
    s.parent.store.row? flowId key = some row → row.storeKey = childKey →
    proc.Passed flowId key ∨ Stopped s.child (childJobId parentKey flowId key)
  driving : ∀ flowId key, proc.Driving flowId key → Lost childKey s flowId key →
    next.Driving flowId key ∨ Stopped s.child (childJobId parentKey flowId key)

structure Sound (parentKey childKey : String) (s : Fleet V) : Prop where
  inv : FleetInv parentKey childKey s
  caught : Caught parentKey childKey s

theorem Sound.setProc {parentKey childKey : String} {s : Fleet V} (h : Sound parentKey childKey s)
    (p : ℕ) {next : Proc V} (hg : Goes parentKey childKey s (s.procs p) next) :
    Sound parentKey childKey (s.setProc p next) where
  inv := by
    refine ⟨h.inv.parent, h.inv.rows, h.inv.child, h.inv.reconcile, h.inv.cascade, fun q => ?_,
      h.inv.reported⟩
    rw [setProc_procs]
    split
    · exact hg.ok
    · exact h.inv.procs q
  caught := by
    rintro flowId key ⟨row, hrow, hstore, hs, hmarked⟩
    have hdone : Lost childKey s flowId key ∨ Stopped s.child (childJobId parentKey flowId key) := by
      rcases hmarked with hcas | ⟨q, hq⟩
      · exact .inl ⟨row, hrow, hstore, hs, .inl hcas⟩
      · rw [setProc_procs] at hq
        split at hq
        · exact (hg.passed flowId key row hq hrow hstore).imp_left fun hp =>
            ⟨row, hrow, hstore, hs, .inr ⟨p, hp⟩⟩
        · exact .inl ⟨row, hrow, hstore, hs, .inr ⟨q, hq⟩⟩
    rcases hdone with hlost | hs
    · rcases h.caught flowId key hlost with hs | ⟨q, hq⟩
      · exact .inl hs
      · by_cases hqp : q = p
        · subst hqp
          rcases hg.driving flowId key hq hlost with hd | hs
          · refine .inr ⟨q, ?_⟩
            rwa [setProc_procs, if_pos rfl]
          · exact .inl hs
        · refine .inr ⟨q, ?_⟩
          rwa [setProc_procs, if_neg hqp]
    · exact .inl hs

theorem ProcOk.goes_refl {parentKey childKey : String} {s : Fleet V} {proc : Proc V}
    (h : ProcOk parentKey childKey s.parent s.child proc) : Goes parentKey childKey s proc proc :=
  ⟨h, fun _ _ _ hp _ _ => .inl hp, fun _ _ hd _ => .inl hd⟩

/-- A step of a procedure that neither passes a child nor may have enqueued one. -/
theorem ProcOk.goes {parentKey childKey : String} {s : Fleet V} {proc next : Proc V}
    (h : ProcOk parentKey childKey s.parent s.child next)
    (hpassed : ∀ flowId key, ¬ next.Passed flowId key)
    (hdriving : ∀ flowId key, ¬ proc.Driving flowId key) : Goes parentKey childKey s proc next :=
  ⟨h, fun flowId key _ hp => absurd hp (hpassed flowId key),
    fun flowId key hd => absurd hd (hdriving flowId key)⟩

/-- The stores after the next call of procedure `p`. -/
def Fleet.called (childKey : String) (s : Fleet V) (p : ℕ) (now : Millis) (known : Bool) : Fleet V :=
  { s with
    parent := (s.call childKey now known (s.procs p)).parent
    child := (s.call childKey now known (s.procs p)).child }

theorem Sound.cancelChild {parentKey childKey : String} {s : Fleet V}
    (h : Sound parentKey childKey s) (now : Millis) (id : Option JobId)
    (hstays : ∀ flowId key, (s.child.jobs.get? (childJobId parentKey flowId key)).isSome →
      ((cancelChild s.child now id).jobs.get? (childJobId parentKey flowId key)).isSome) :
    Sound parentKey childKey { s with child := cancelChild s.child now id } := by
  cases id with
  | none => exact h
  | some id =>
    have hretry : ∀ flowId key, (.cancel id : Op V) ≠ .retry (childJobId parentKey flowId key) :=
      fun _ _ heq => by cases heq
    exact ⟨h.inv.child_exec now (.cancel id) hretry hstays,
      h.caught.child_exec h.inv now (.cancel id) hretry fun _ _ _ _ hj =>
        exec_absent h.inv.child.keyed now (.cancel id) (fun _ => cancel_not_inserts) hj⟩

/-- An enqueue of one child, caught by its reconcile or known to be safe. -/
theorem Sound.enqueueChild {parentKey childKey : String} {s : Fleet V}
    (h : Sound parentKey childKey s) (now : Millis) {spec : FlowChildSpec V} {flowId : JobId}
    (hid : spec.request.id = some (childJobId parentKey flowId spec.childKey))
    (hsafe : s.child.jobs.get? (childJobId parentKey flowId spec.childKey) = none →
      Lost childKey s flowId spec.childKey → ∃ p, (s.procs p).Driving flowId spec.childKey)
    (hstays : ∀ flowId key, (s.child.jobs.get? (childJobId parentKey flowId key)).isSome →
      ((exec s.child now (.enqueue spec.request .counter)).jobs.get?
        (childJobId parentKey flowId key)).isSome) :
    Sound parentKey childKey
      { s with child := exec s.child now (.enqueue spec.request .counter) } := by
  have hretry : ∀ flowId key, (.enqueue spec.request .counter : Op V) ≠
      .retry (childJobId parentKey flowId key) := fun _ _ heq => by cases heq
  refine ⟨h.inv.child_exec now _ hretry hstays, h.caught.child_exec h.inv now _ hretry ?_⟩
  intro flowId' key hlost hnot hj
  by_cases heq : childJobId parentKey flowId' key = childJobId parentKey flowId spec.childKey
  · obtain ⟨_, rfl, rfl⟩ := childJobId_injective heq
    obtain ⟨p, hp⟩ := hsafe hj hlost
    exact absurd hp (hnot p)
  · exact enqueue_absent h.inv.child.keyed now .counter hid heq hj

/-- The stores stay sound under the call of a procedure. -/
theorem Sound.called {parentKey childKey : String} {s : Fleet V} (h : Sound parentKey childKey s)
    (p : ℕ) (now : Millis) (known answered : Bool)
    (hsafe : (FleetEvent.call p now known answered).Safe parentKey childKey s)
    (hr : ¬ s.parent.Reuses (s.called childKey p now known).parent)
    (hstays : ∀ flowId key, (s.child.jobs.get? (childJobId parentKey flowId key)).isSome →
      ((s.called childKey p now known).child.jobs.get? (childJobId parentKey flowId key)).isSome) :
    Sound parentKey childKey (s.called childKey p now known) := by
  have hok := h.inv.procs p
  have hparent : ∀ op : Op V, op.FansOut (Built parentKey) →
      (∀ report ∈ op.reports, Genuine parentKey childKey s report) →
      (∀ flowId keys, op = .markChildrenCascaded flowId keys →
        ∃ p, s.procs p = .cascade flowId [] keys) →
      ¬ s.parent.Reuses (s.parent.exec now op) →
      Sound parentKey childKey { s with parent := s.parent.exec now op } :=
    fun op hfans hgenuine hmark hr => ⟨h.inv.parent_exec now op hfans hr hgenuine,
      h.caught.parent_exec h.inv now op hfans hr hgenuine hmark⟩
  unfold Fleet.called at hr hstays ⊢
  cases hproc : s.procs p with
  | idle => exact h
  | fanOut id token failFast children stage =>
    rw [hproc] at hok hr hstays
    cases stage with
    | ack =>
      exact hparent _ hok.1 (fun _ hmem => by cases hmem) (fun _ _ heq => by cases heq) hr
    | check => exact h
    | enqueue rest =>
      cases rest with
      | nil => exact h
      | cons spec rest =>
        simp only [Fleet.call, fanOutCall] at hstays ⊢
        split
        · rename_i hcond
          rw [if_pos hcond] at hstays
          have hmem : spec ∈ children := hok.2 _ rfl List.mem_cons_self
          refine h.enqueueChild now (hok.1.id spec hmem) (fun hj hlost => ?_) hstays
          exact absurd hlost (hsafe _ _ _ _ _ _ hproc hcond.1 hcond.2 hj)
        · exact h
  | reconcile flowId spec stage =>
    rw [hproc] at hok hr hstays
    have hid := hok.1.built h.inv
    cases stage with
    | getChild | before | after => exact h
    | enqueue =>
      refine h.enqueueChild now hid (fun _ _ => ⟨p, ?_⟩) hstays
      rw [hproc]
      exact ⟨rfl, rfl⟩
    | cancel => exact h.cancelChild now spec.request.id hstays
    | report outcome exit reason =>
      refine hparent _ trivial (fun report hmem => ?_) (fun _ _ heq => by cases heq) hr
      cases List.mem_singleton.mp hmem
      exact fun _ _ _ _ _ _ => hok.2.2 outcome exit reason rfl
  | cascade flowId children done =>
    rw [hproc] at hok hr hstays
    cases children with
    | nil =>
      refine hparent _ trivial (fun _ hmem => by cases hmem) (fun flowId' keys heq => ?_) hr
      cases heq
      exact ⟨p, hproc⟩
    | cons c rest =>
      simp only [Fleet.call, cascadeCall] at hstays ⊢
      split
      · rename_i hknown
        rw [if_pos hknown] at hstays
        simp only at hstays ⊢
        split
        · rename_i hstore
          rw [if_pos hstore] at hstays
          exact h.cancelChild now c.childJobId hstays
        · exact h
      · exact h

theorem enqueueRest_ok {parentKey childKey : String} {s : Fleet V} {id : JobId}
    (token : String) (failFast : Bool) {children rest : List (FlowChildSpec V)}
    (hb : Built parentKey id children) (hsub : rest ⊆ children) :
    ProcOk parentKey childKey s.parent s.child (enqueueRest id token failFast children rest) := by
  unfold enqueueRest
  split
  · trivial
  · exact ⟨hb, fun rest' heq => by cases heq; exact hsub⟩

theorem enqueueRest_passed (id : JobId) (token : String) (failFast : Bool)
    (children rest : List (FlowChildSpec V)) (flowId : JobId) (key : String) :
    ¬ (enqueueRest id token failFast children rest).Passed flowId key := by
  unfold enqueueRest
  split <;> exact fun h => h

theorem cascadeRest_ok {parentKey childKey : String} {s : Fleet V} {flowId : JobId}
    {children : List CascadeChild} {done : List String}
    (hc : ∀ c ∈ children, CascadeOk s.parent flowId c)
    (hd : ∀ key ∈ done, RowCancelled s.parent flowId key) :
    ProcOk parentKey childKey s.parent s.child (cascadeRest flowId children done) := by
  unfold cascadeRest
  split
  · trivial
  · exact ⟨hc, hd⟩

theorem cascadeRest_passed {flowId flowId' : JobId} {children : List CascadeChild}
    {done : List String} {key : String}
    (h : (cascadeRest flowId children done : Proc V).Passed flowId' key) :
    flowId = flowId' ∧ key ∈ done := by
  unfold cascadeRest at h
  split at h
  · exact h.elim
  · exact h

theorem isParked_iff {c : Core V} {id : JobId} : isParked c id = true ↔ ¬ (c.view id).NotParked := by
  unfold isParked View.NotParked Core.view
  cases c.jobs.get? id with
  | none => simp
  | some job => simp

/-- A fan-out passes no child and drives none. -/
theorem fanOut_goes {parentKey childKey : String} {s : Fleet V} (now : Millis)
    (known : Bool) {id : JobId} {token : String} {failFast : Bool}
    {children : List (FlowChildSpec V)} {stage : FanOutStage V} {t : Fleet V}
    (hok : ProcOk parentKey childKey s.parent s.child
      (.fanOut id token failFast children stage)) :
    Goes parentKey childKey t (.fanOut id token failFast children stage)
      (fanOutCall childKey s now known id token failFast children stage).next := by
  have hdriving : ∀ flowId key,
      ¬ (Proc.fanOut id token failFast children stage).Driving flowId key := fun _ _ h => h
  have hidle : Goes parentKey childKey t (.fanOut id token failFast children stage) .idle :=
    ProcOk.goes trivial (fun _ _ h => h) hdriving
  have hstage : ∀ stage' : FanOutStage V, (∀ rest, stage' ≠ .enqueue rest) →
      Goes parentKey childKey t (.fanOut id token failFast children stage)
        (.fanOut id token failFast children stage') := fun stage' hne =>
    ProcOk.goes ⟨hok.1, fun rest heq => absurd heq (hne rest)⟩ (fun _ _ h => h) hdriving
  have hrest : ∀ rest, rest ⊆ children →
      Goes parentKey childKey t (.fanOut id token failFast children stage)
        (enqueueRest id token failFast children rest) := fun rest hsub =>
    ProcOk.goes (enqueueRest_ok token failFast hok.1 hsub)
      (enqueueRest_passed id token failFast children rest) hdriving
  cases stage with
  | ack =>
    simp only [fanOutCall]
    split
    · exact hstage .check fun _ h => by cases h
    · exact hstage .ack fun _ h => by cases h
    · exact hidle
  | check =>
    simp only [fanOutCall]
    split
    · exact hrest children fun _ h => h
    · exact hidle
  | enqueue rest =>
    cases rest with
    | nil => exact hidle
    | cons spec rest =>
      exact hrest rest fun _ hmem => hok.2 _ rfl (List.mem_cons_of_mem _ hmem)

/-- A reconcile drives its child until the parent is parked or the child cancelled. -/
theorem reconcile_goes {parentKey childKey : String} {s t : Fleet V}
    (hs : FleetInv parentKey childKey s) (ht : FleetInv parentKey childKey t) (now : Millis)
    {flowId : JobId} {spec : FlowChildSpec V} {stage : ReconcileStage V}
    (hok : ProcOk parentKey childKey s.parent s.child (.reconcile flowId spec stage))
    (hparent : t.parent = (reconcileCall s now flowId spec stage).parent)
    (hchild : t.child = (reconcileCall s now flowId spec stage).child) :
    Goes parentKey childKey t (.reconcile flowId spec stage)
      (reconcileCall s now flowId spec stage).next := by
  have hid := hok.1.built hs
  have hidle : (∀ flowId' key, ¬ (Proc.reconcile flowId spec stage).Driving flowId' key) →
      Goes parentKey childKey t (.reconcile flowId spec stage) .idle :=
    fun hd => ProcOk.goes trivial (fun _ _ h => h) hd
  cases stage with
  | getChild =>
    have hgo : ∀ stage' : ReconcileStage V, (∀ outcome exit reason,
        stage' = .report outcome exit reason →
          ChildEnded parentKey s.child flowId spec.childKey outcome) →
        Goes parentKey childKey t (.reconcile flowId spec .getChild)
          (.reconcile flowId spec stage') := fun stage' hended =>
      ProcOk.goes ⟨hparent ▸ hok.1, hok.2.1, by rw [hchild]; exact hended⟩ (fun _ _ h => h)
        fun _ _ h => h
    simp only [reconcileCall, hid]
    cases hget : getJob s.child (childJobId parentKey flowId spec.childKey) with
    | none => exact hgo .before fun _ _ _ h => by cases h
    | some existing =>
      simp only
      cases ho : existing.state.terminal? with
      | none => exact hidle fun _ _ h => h
      | some outcome =>
        refine hgo _ fun outcome' _ _ heq => ?_
        cases heq
        obtain ⟨job, hj, rfl⟩ := Option.map_eq_some_iff.mp hget
        exact ⟨job, hj, ho⟩
  | before =>
    simp only [reconcileCall]
    split
    · exact ProcOk.goes ⟨hparent ▸ hok.1, hok.2.1, fun _ _ _ h => by cases h⟩ (fun _ _ h => h)
        fun _ _ h => h
    · exact hidle fun _ _ h => h
  | enqueue =>
    exact ⟨⟨hparent ▸ hok.1, hok.2.1, fun _ _ _ h => by cases h⟩, fun _ _ _ h => h.elim,
      fun _ _ hd _ => .inl hd⟩
  | after =>
    simp only [reconcileCall]
    split
    · rename_i hparked
      refine ⟨trivial, fun _ _ _ h => h.elim, ?_⟩
      -- the parent is parked, so the child of a cancelled row was reported
      rintro flowId' key ⟨rfl, rfl⟩ ⟨row, hrow, hstore, hcancelled, _⟩
      have hp : ¬ (t.parent.store.toCore.view flowId).NotParked := by
        rw [hparent]
        exact isParked_iff.mp hparked
      obtain ⟨outcome, hended⟩ := ht.reported flowId spec.childKey row hp hrow hstore hcancelled
      exact .inr hended.stopped
    · exact ⟨⟨hparent ▸ hok.1, hok.2.1, fun _ _ _ h => by cases h⟩, fun _ _ _ h => h.elim,
        fun _ _ hd _ => .inl hd⟩
  | cancel =>
    refine ⟨trivial, fun _ _ _ h => h.elim, ?_⟩
    rintro flowId' key ⟨rfl, rfl⟩ _
    rw [hchild]
    simp only [reconcileCall, hid, Worker.cancelChild]
    exact .inr (cancelJob_stopped hs.child.keyed now _)
  | report => exact hidle fun _ _ h => h

/-- A cascade passes a child once it is stopped. -/
theorem cascade_goes {parentKey childKey : String} {s t : Fleet V}
    (hs : FleetInv parentKey childKey s) (now : Millis)
    (known : Bool) {flowId : JobId} {children : List CascadeChild} {done : List String}
    (hok : ProcOk parentKey childKey s.parent s.child (.cascade flowId children done))
    (hparent : t.parent = (cascadeCall childKey s now known flowId done children).parent)
    (hchild : t.child = (cascadeCall childKey s now known flowId done children).child) :
    Goes parentKey childKey t (.cascade flowId children done)
      (cascadeCall childKey s now known flowId done children).next := by
  have hdriving : ∀ flowId' key,
      ¬ (Proc.cascade flowId children done : Proc V).Driving flowId' key := fun _ _ h => h
  cases children with
  | nil => exact ProcOk.goes trivial (fun _ _ h => h) hdriving
  | cons c rest =>
    have hrest : ∀ c ∈ rest, CascadeOk s.parent flowId c :=
      fun c hc => hok.1 c (List.mem_cons_of_mem _ hc)
    simp only [cascadeCall] at hparent hchild ⊢
    split
    · rename_i hknown
      rw [if_pos hknown] at hparent hchild
      have hparent : t.parent = s.parent := hparent
      refine ⟨?_, ?_, fun _ _ hd => absurd hd (hdriving _ _)⟩
      · refine cascadeRest_ok (fun c hc => hparent ▸ hrest c hc) fun key hkey => ?_
        rw [hparent]
        rcases List.mem_append.mp hkey with hkey | hkey
        · exact hok.2 key hkey
        · cases List.mem_singleton.mp hkey
          exact (hok.1 c List.mem_cons_self).1
      · intro flowId' key row hp hrow hstore
        obtain ⟨rfl, hkey⟩ := cascadeRest_passed hp
        rcases List.mem_append.mp hkey with hkey | hkey
        · exact .inl ⟨rfl, hkey⟩
        · cases List.mem_singleton.mp hkey
          obtain ⟨_, spec, hm, rfl⟩ := hok.1 c List.mem_cons_self
          rw [hparent] at hrow
          obtain ⟨hm', hkey⟩ := hs.row_ofManifest hrow
          obtain rfl := OfManifest.unique hs hm' hm hkey
          have hstore : (specOf row).storeKey = childKey := hstore
          rw [hchild]
          simp only
          rw [if_pos hstore, hm.built hs]
          exact .inr (cancelJob_stopped hs.child.keyed now _)
    · rename_i hknown
      rw [if_neg hknown] at hparent hchild
      have hparent : t.parent = s.parent := hparent
      refine ⟨?_, ?_, fun _ _ hd => absurd hd (hdriving _ _)⟩
      · exact cascadeRest_ok (fun c hc => hparent ▸ hrest c hc) fun key hkey =>
          hparent ▸ hok.2 key hkey
      · exact fun _ _ _ hp _ _ => .inl (cascadeRest_passed hp)

theorem Sound.goes {parentKey childKey : String} {s : Fleet V} (h : Sound parentKey childKey s)
    (p : ℕ) (now : Millis) (known : Bool)
    (ht : Sound parentKey childKey (s.called childKey p now known)) :
    Goes parentKey childKey (s.called childKey p now known) (s.procs p)
      (s.call childKey now known (s.procs p)).next := by
  have hok := h.inv.procs p
  have hparent : (s.called childKey p now known).parent =
      (s.call childKey now known (s.procs p)).parent := rfl
  have hchild : (s.called childKey p now known).child =
      (s.call childKey now known (s.procs p)).child := rfl
  cases hproc : s.procs p with
  | idle => exact ProcOk.goes_refl trivial
  | fanOut =>
    rw [hproc] at hok
    exact fanOut_goes now known hok
  | reconcile =>
    rw [hproc] at hok hparent hchild
    exact reconcile_goes h.inv ht.inv now hok hparent hchild
  | cascade =>
    rw [hproc] at hok hparent hchild
    exact cascade_goes h.inv now known hok hparent hchild

/-! ## Steps and runs -/

/-- What a sweep hands out for reconciliation is in the manifest. -/
theorem FleetInv.swept_reconcile {parentKey childKey : String} {s : Fleet V}
    (h : FleetInv parentKey childKey s) (now : Millis) (options : FlowSweepOptions) {flowId : JobId}
    {spec : FlowChildSpec V}
    (hmem : (flowId, spec) ∈ ungroup (flowSweepWork s.parent.store now options).1.reconcile) :
    OfManifest s.parent flowId spec := by
  rw [flowSweepWork_reconcile] at hmem
  obtain ⟨⟨id, row⟩, hpage, heq⟩ := List.mem_map.mp hmem
  cases heq
  have hrow := ((mem_selectRows h.rows).mp (List.mem_of_mem_take hpage)).1
  exact (h.row_ofManifest hrow).1

theorem FleetInv.swept_cascade {parentKey childKey : String} {s : Fleet V}
    (h : FleetInv parentKey childKey s) (now : Millis) (options : FlowSweepOptions) {flowId : JobId}
    {child : CascadeChild}
    (hmem : (flowId, child) ∈ ungroup (flowSweepWork s.parent.store now options).1.cascade) :
    CascadeOk s.parent flowId child := by
  rw [flowSweepWork_cascade] at hmem
  obtain ⟨⟨id, row⟩, hpage, heq⟩ := List.mem_map.mp hmem
  cases heq
  obtain ⟨hrow, howed⟩ := (mem_selectRows h.rows).mp (List.mem_of_mem_take hpage)
  refine ⟨⟨h.landed_of_row hrow, fun row' hrow' => ?_⟩, specOf row, (h.row_ofManifest hrow).1, rfl⟩
  cases hrow.symm.trans hrow'
  exact (of_decide_eq_true howed).1

theorem Sound.step {parentKey childKey : String} {s t : Fleet V} {e : FleetEvent V}
    (hs : FleetStep parentKey childKey s e t) (hsafe : e.Safe parentKey childKey s)
    (h : Sound parentKey childKey s) : Sound parentKey childKey t := by
  obtain ⟨hlegal, rfl, hr, hstays⟩ := hs
  cases e with
  | parent now op =>
    obtain ⟨hfans, hmark, hgenuine⟩ := hlegal
    exact ⟨h.inv.parent_exec now op hfans hr hgenuine,
      h.caught.parent_exec h.inv now op hfans hr hgenuine fun _ _ heq => absurd heq (hmark _ _)⟩
  | child now op =>
    exact ⟨h.inv.child_exec now op (fun _ _ => (hlegal _ _).1) hstays,
      h.caught.child_exec h.inv now op (fun _ _ => (hlegal _ _).1) fun _ _ _ _ => (hlegal _ _).2⟩
  | sweep now options =>
    have hgenuine : ∀ report ∈ (.flowSweepWork options : Op V).reports,
        Genuine parentKey childKey s report := fun _ hmem => by cases hmem
    have hinv := h.inv.parent_exec now (.flowSweepWork options) trivial hr hgenuine
    have hcaught := h.caught.parent_exec h.inv now (.flowSweepWork options) trivial hr hgenuine
      fun _ _ heq => by cases heq
    refine ⟨⟨hinv.parent, hinv.rows, hinv.child, ?_, ?_, hinv.procs, hinv.reported⟩, hcaught⟩
    · intro flowId spec hmem
      simp only [fleetAct, appendWork, ungroup, List.flatMap_append, List.mem_append] at hmem
      rcases hmem with hmem | hmem
      · exact hinv.reconcile flowId spec hmem
      · exact (h.inv.swept_reconcile now options hmem).exec h.inv.parent now _
    · intro flowId c hmem
      simp only [fleetAct, appendWork, ungroup, List.flatMap_append, List.mem_append] at hmem
      rcases hmem with hmem | hmem
      · exact hinv.cascade flowId c hmem
      · exact (h.inv.swept_cascade now options hmem).exec h.inv.parent hinv.parent hr
  | start p proc =>
    obtain ⟨hidle, hstart⟩ := hlegal
    refine h.setProc p ?_
    rw [hidle]
    refine ProcOk.goes ?_ ?_ fun _ _ h => h
    · cases proc with
      | idle => trivial
      | fanOut id token failFast children stage =>
        cases stage with
        | ack => exact ⟨hstart, fun _ heq => by cases heq⟩
        | check | enqueue => exact hstart.elim
      | reconcile flowId spec stage =>
        cases stage with
        | getChild =>
          exact ⟨h.inv.reconcile flowId spec hstart.2, hstart.1, fun _ _ _ heq => by cases heq⟩
        | before | enqueue | after | cancel | report => exact hstart.elim
      | cascade flowId children done =>
        cases done with
        | nil =>
          exact ⟨fun c hc => h.inv.cascade flowId c (mem_ungroup.mpr ⟨children, hstart, hc⟩),
            fun _ hkey => by cases hkey⟩
        | cons => exact hstart.elim
    · intro flowId key hp
      cases proc with
      | cascade flowId' children done =>
        cases done with
        | nil => cases hp.2
        | cons => exact hstart
      | _ => exact hp
  | call p now known answered =>
    have hcalled := h.called p now known answered hsafe hr hstays
    refine hcalled.setProc p ?_
    cases answered with
    | true => exact h.goes p now known hcalled
    | false => exact (hcalled.inv.procs p).goes_refl
  | stop p =>
    refine h.setProc p ⟨trivial, fun _ _ _ hp => hp.elim, fun flowId key hd hlost => ?_⟩
    exact .inr (hsafe flowId key hd hlost)

theorem Sound.start {parentKey childKey : String} {s : Fleet V} (h : FleetStart s) :
    Sound parentKey childKey s := by
  obtain ⟨parent, child, handed, procs⟩ := s
  obtain ⟨rfl, rfl, rfl, hprocs⟩ := h
  have hprocs : ∀ p, procs p = .idle := hprocs
  obtain rfl : procs = fun _ => .idle := funext hprocs
  refine ⟨⟨.empty, ?_, .empty Covers, ?_, ?_, fun _ => trivial, ?_⟩, ?_⟩
  · exact fun _ _ _ _ hr => by cases hr
  · exact fun _ _ hmem => by cases hmem
  · exact fun _ _ hmem => by cases hmem
  · exact fun _ _ _ _ hrow => by cases hrow
  · rintro _ _ ⟨_, hrow, _⟩
    cases hrow

/-- The steps of `FleetStep` that are safe. -/
def SafeStep (parentKey childKey : String) (s : Fleet V) (e : FleetEvent V) (t : Fleet V) : Prop :=
  FleetStep parentKey childKey s e t ∧ e.Safe parentKey childKey s

theorem reachable_sound {parentKey childKey : String} {s : Fleet V}
    (h : Reachable FleetStart (SafeStep parentKey childKey) s) : Sound parentKey childKey s :=
  h.induct (I := Sound parentKey childKey) (fun _ => .start) fun _ _ _ hs h => h.step hs.1 hs.2

/-- Safe steps leave no orphan behind. -/
theorem no_orphans {parentKey childKey : String} {s : Fleet V}
    (h : Reachable FleetStart (SafeStep parentKey childKey) s) : NoOrphan childKey s := by
  intro hidle flowId key row id hrow hstore hs hcas hid
  have hsound := reachable_sound h
  obtain ⟨hm, hkey⟩ := hsound.inv.row_ofManifest hrow
  have hbuilt : row.spec.id = some (childJobId parentKey flowId row.childKey) := hm.built hsound.inv
  obtain rfl := Option.some.inj (hid.symm.trans hbuilt)
  rw [hkey]
  rcases hsound.caught flowId key ⟨row, hrow, hstore, hs, .inl hcas⟩ with hstopped | ⟨p, hd⟩
  · exact hstopped
  · rw [hidle p] at hd
    exact hd.elim

/-! ## Two runs -/

/-- A decidable reason for the two side conditions of `FleetStep`. -/
def keepsIds (childKey : String) (s : Fleet V) (e : FleetEvent V) : Bool :=
  let t := fleetAct childKey s e
  (s.parent.manifests.keys.all fun id => !t.parent.store.jobs.has id || s.parent.store.jobs.has id) &&
    s.child.jobs.keys.all fun id => t.child.jobs.has id

theorem FleetStep.of_keepsIds {parentKey childKey : String} {s : Fleet V} {e : FleetEvent V}
    (hlegal : e.Legal parentKey childKey s) (hids : keepsIds childKey s e = true) :
    FleetStep parentKey childKey s e (fleetAct childKey s e) := by
  unfold keepsIds at hids
  simp only [Bool.and_eq_true, List.all_eq_true, Bool.or_eq_true, Bool.not_eq_true'] at hids
  refine ⟨hlegal, rfl, ?_, fun flowId key hsome => ?_⟩
  · rintro ⟨id, hm, hnone, hsome⟩
    rcases hids.1 id (JsMap.mem_keys.mpr (Option.isSome_iff_exists.mp hm)) with hno | hyes
    · exact absurd hsome (by rw [← JsMap.has, hno]; decide)
    · rw [JsMap.has, hnone] at hyes
      cases hyes
  · exact hids.2 _ (JsMap.mem_keys.mpr (Option.isSome_iff_exists.mp hsome))

/-- The event neither enqueues a child for a fan-out nor abandons a reconcile. -/
def FleetEvent.mild (s : Fleet V) : FleetEvent V → Bool
  | .call p _ _ _ => match s.procs p with
    | .fanOut _ _ _ _ (.enqueue _) => false
    | _ => true
  | .stop p => match s.procs p with
    | .reconcile _ _ _ => false
    | _ => true
  | _ => true

theorem FleetEvent.safe_of_mild {parentKey childKey : String} {s : Fleet V} {e : FleetEvent V}
    (h : e.mild s = true) : e.Safe parentKey childKey s := by
  cases e with
  | call p now known answered =>
    intro id token failFast children spec rest hproc
    rw [mild, hproc] at h
    cases h
  | stop p =>
    intro flowId key hd
    cases hproc : s.procs p with
    | reconcile =>
      rw [mild, hproc] at h
      cases h
    | _ =>
      rw [hproc] at hd
      exact hd.elim
  | _ => trivial

def soloSpec : FlowChildSpec Unit :=
  ⟨"a", "kids", { EnqueueRequest.plain (childJobId "main" "p" "a") "child" "q" () with
    parent := some ⟨"flow", "p", "a", "main", 1⟩ }⟩

theorem soloSpec_built : Built "main" "p" [soloSpec] where
  keys := by decide
  id := fun _ hc => by cases List.mem_singleton.mp hc; rfl
  parent := fun _ hc => by cases List.mem_singleton.mp hc; exact ⟨_, _, rfl⟩
  dedupe := fun _ hc => by cases List.mem_singleton.mp hc; rfl
  delay := fun _ hc => by cases List.mem_singleton.mp hc; rfl

def soloCascade : List CascadeChild := [⟨"a", "kids", some (childJobId "main" "p" "a")⟩]

def emptyFleet : Fleet Unit := ⟨⟨Store.empty, ∅⟩, Store.empty, ⟨[], []⟩, fun _ => .idle⟩

/-- A flow with one child is fanned out and looked at while its parent is parked. -/
def fannedOut : List (FleetEvent Unit) :=
  [.parent 0 (.enqueue (.plain "p" "flow" "q" ()) .counter),
    .parent 1 (.claim ⟨"q", ["flow"], "t", 10⟩),
    .start 0 (.fanOut "p" "t" false [soloSpec] .ack),
    .call 0 2 true true,
    .call 0 2 true true]

/-- The parent is cancelled, and its cascade by procedure `p` finds no child. -/
def cascaded (p : ℕ) : List (FleetEvent Unit) :=
  [.parent 30 (.cancel "p"),
    .sweep 31 ⟨5, 10⟩,
    .start p (.cascade "p" soloCascade []),
    .call p 32 true true,
    .call p 33 true true]

/-- The fan-out is abandoned, and a reconcile gets as far as its enqueue. -/
def reconciled : List (FleetEvent Unit) :=
  [.stop 0,
    .sweep 20 ⟨5, 10⟩,
    .start 1 (.reconcile "p" soloSpec .getChild),
    .call 1 21 true true,
    .call 1 22 true true]

def fleetRun (events : List (FleetEvent Unit)) : Fleet Unit :=
  events.foldl (fleetAct "kids") emptyFleet

theorem parent_legal {s : Fleet Unit} {now : Millis} {op : Op Unit}
    (hfans : op.FansOut (Built "main")) (hmark : ∀ flowId keys, op ≠ .markChildrenCascaded flowId keys)
    (hreports : op.reports = []) : (FleetEvent.parent now op).Legal "main" "kids" s := by
  refine ⟨hfans, hmark, fun report hmem => ?_⟩
  rw [hreports] at hmem
  cases hmem

theorem SafeStep.of_mild {s : Fleet Unit} {e : FleetEvent Unit} (hlegal : e.Legal "main" "kids" s)
    (hids : keepsIds "kids" s e = true) (hmild : e.mild s = true) :
    SafeStep "main" "kids" s e (fleetAct "kids" s e) :=
  ⟨.of_keepsIds hlegal hids, FleetEvent.safe_of_mild hmild⟩

theorem fannedOut_run : Run (SafeStep "main" "kids") emptyFleet fannedOut (fleetRun fannedOut) :=
  .cons (.of_mild (parent_legal trivial (fun _ _ => nofun) rfl) rfl rfl) <|
  .cons (.of_mild (parent_legal trivial (fun _ _ => nofun) rfl) rfl rfl) <|
  .cons (.of_mild ⟨rfl, soloSpec_built⟩ rfl rfl) <|
  .cons (.of_mild trivial rfl rfl) <|
  .cons (.of_mild trivial rfl rfl) <| .refl _

theorem fannedOut_cascaded_run : Run (SafeStep "main" "kids") (fleetRun fannedOut) (cascaded 1)
    (fleetRun (fannedOut ++ cascaded 1)) :=
  .cons (.of_mild (parent_legal trivial (fun _ _ => nofun) rfl) rfl rfl) <|
  .cons (.of_mild trivial rfl rfl) <|
  .cons (.of_mild ⟨rfl, List.mem_singleton.mpr rfl⟩ rfl rfl) <|
  .cons (.of_mild trivial rfl rfl) <|
  .cons (.of_mild trivial rfl rfl) <| .refl _

theorem fannedOut_reconciled_run : Run (SafeStep "main" "kids") (fleetRun fannedOut) reconciled
    (fleetRun (fannedOut ++ reconciled)) :=
  .cons (.of_mild trivial rfl rfl) <|
  .cons (.of_mild trivial rfl rfl) <|
  .cons (.of_mild ⟨rfl, rfl, List.mem_singleton.mpr rfl⟩ rfl rfl) <|
  .cons (.of_mild trivial rfl rfl) <|
  .cons (.of_mild trivial rfl rfl) <| .refl _

theorem reconciled_cascaded_run :
    Run (SafeStep "main" "kids") (fleetRun (fannedOut ++ reconciled)) (cascaded 2)
      (fleetRun (fannedOut ++ reconciled ++ cascaded 2)) :=
  .cons (.of_mild (parent_legal trivial (fun _ _ => nofun) rfl) rfl rfl) <|
  .cons (.of_mild trivial rfl rfl) <|
  .cons (.of_mild ⟨rfl, List.mem_singleton.mpr rfl⟩ rfl rfl) <|
  .cons (.of_mild trivial rfl rfl) <|
  .cons (.of_mild trivial rfl rfl) <| .refl _

/-- The reconcile enqueues the child of a cascaded row, sees the parent gone and cancels the child. -/
def caught : List (FleetEvent Unit) := [.call 1 41 true true, .call 1 42 true true, .call 1 43 true true]

theorem caught_run :
    Run (SafeStep "main" "kids") (fleetRun (fannedOut ++ reconciled ++ cascaded 2)) caught
      (fleetRun (fannedOut ++ reconciled ++ cascaded 2 ++ caught)) :=
  .cons (.of_mild trivial rfl rfl) <| .cons (.of_mild trivial rfl rfl) <|
  .cons (.of_mild trivial rfl rfl) <| .refl _

theorem no_orphans_caught :
    NoOrphan "kids" (fleetRun (fannedOut ++ reconciled ++ cascaded 2 ++ caught)) :=
  no_orphans ⟨emptyFleet, _, ⟨rfl, rfl, rfl, fun _ => rfl⟩, fannedOut_run.trans
    (fannedOut_reconciled_run.trans (reconciled_cascaded_run.trans caught_run))⟩

example : ((fleetRun (fannedOut ++ reconciled ++ cascaded 2 ++ caught)).child.jobs.values.map
    (·.state)) = [.cancelled] := rfl

/-- The fan-out enqueues after the cascade: the child of a cancelled and cascaded row is waiting. -/
theorem orphan_waiting : ¬ ∀ s : Fleet Unit, Reachable FleetStart (FleetStep "main" "kids") s →
    NoOrphan "kids" s := by
  intro h
  have hprefix : Run (FleetStep "main" "kids") emptyFleet (fannedOut ++ cascaded 1)
      (fleetRun (fannedOut ++ cascaded 1)) :=
    (fannedOut_run.trans fannedOut_cascaded_run).mono fun _ _ _ hs => hs.1
  have hlast : FleetStep "main" "kids" (fleetRun (fannedOut ++ cascaded 1)) (.call 0 40 true true)
      (fleetRun (fannedOut ++ cascaded 1 ++ [.call 0 40 true true])) :=
    .of_keepsIds trivial rfl
  have hreach : Reachable FleetStart (FleetStep "main" "kids")
      (fleetRun (fannedOut ++ cascaded 1 ++ [.call 0 40 true true])) :=
    ⟨emptyFleet, _, ⟨rfl, rfl, rfl, fun _ => rfl⟩, hprefix.snoc hlast⟩
  have hidle : ∀ p, (fleetRun (fannedOut ++ cascaded 1 ++ [.call 0 40 true true])).procs p = .idle := by
    intro p
    match p with
    | 0 => rfl
    | 1 => rfl
    | _ + 2 => rfl
  have hstopped := h _ hreach hidle "p" "a" _ _ rfl rfl rfl rfl rfl
  rcases hstopped _ rfl with hterminal | ⟨hactive, _⟩
  · cases hterminal
  · cases hactive

end EffectMq.Worker
