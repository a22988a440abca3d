import EffectMq.Worker.Relay
import EffectMq.Worker.Cascade
import EffectMq.MemoryJobStore.Dedupe

/-! # Flow parents whose id is used again

A parent store, any number of child stores, the relays of each child store and the procedures of the
workers. Jobs may be removed, pruned and enqueued again under their old id, and a report or an enqueue
may be on its way for as long as it likes.

History variables tell the fan-outs that landed under one parent id apart: `landings` counts them, and
`born`, `sent` and `tags` say for which of them a child was enqueued. `Carries` collects all that can
still give a row an outcome. What is on its way for a pending row is of the last landing (`Current`),
as long as a landing finds nothing of its children left (`Clean`).
-/

namespace EffectMq.Worker
set_option autoImplicit false
set_option maxHeartbeats 250000

open Transition Memory

variable {V : Type}

/-! ## State -/

structure Deployment (V : Type) where
  parent : Ledger V
  children : String → Store V
  relays : ℕ → Relay V
  procs : ℕ → Proc V
  /-- Reconcile work that sweeps have handed out, with the landing of its rows. -/
  handed : List (ℕ × JobId × FlowChildSpec V)
  /-- How many fan-outs have landed under an id. -/
  landings : JobId → ℕ
  /-- The landing the job of a child store was enqueued for, 0 if it was enqueued for none. -/
  born : String → JobId → ℕ
  /-- The landing the child of an outbox entry was enqueued for. -/
  sent : String → OutboxEntry V → ℕ
  /-- The landing a procedure works for, or the child whose report it holds was enqueued for. -/
  tags : ℕ → ℕ

def Deployment.empty : Deployment V where
  parent := ⟨Store.empty, ∅⟩
  children := fun _ => Store.empty
  relays := fun _ => .start
  procs := fun _ => .idle
  handed := []
  landings := fun _ => 0
  born := fun _ _ => 0
  sent := fun _ _ => 0
  tags := fun _ => 0

def Deployment.parentExec (s : Deployment V) (now : Millis) (op : Op V) : Deployment V :=
  { s with
    parent := s.parent.exec now op
    landings := match landing s.parent.store now op with
      | some (id, _) => Function.update s.landings id (s.landings id + 1)
      | none => s.landings }

/-- `tag` is for what the operation inserts; its new outbox entries are of children it ends. -/
def Deployment.childExec (parentKey : String) (s : Deployment V) (key : String) (now : Millis)
    (op : Op V) (tag : ℕ) : Deployment V :=
  let child := s.children key
  let child' := exec child now op
  { s with
    children := Function.update s.children key child'
    born := Function.update s.born key fun id =>
      if child.jobs.has id = false ∧ child'.jobs.has id = true then tag else s.born key id
    sent := Function.update s.sent key fun entry =>
      if child.outboxSeq < entry.id then
        s.born key (childJobId parentKey entry.report.flowId entry.report.childKey)
      else s.sent key entry }

/-! ## Calls of procedures -/

/-- The child store the next call of a procedure is about. -/
def Proc.store : Proc V → String
  | .fanOut _ _ _ _ (.enqueue (spec :: _)) => spec.storeKey
  | .reconcile _ child _ => child.storeKey
  | .cascade _ (child :: _) _ => child.storeKey
  | _ => ""

/-- What the next call does to the parent store. -/
def Proc.parentOp : Proc V → Option (Op V)
  | .fanOut id token failFast children .ack => some (.ack id token (.fanOut failFast children))
  | .reconcile flowId child (.report outcome exit failedReason) =>
    some (.recordChildResults [⟨flowId, child.childKey, outcome, exit, failedReason⟩])
  | .cascade flowId [] done => some (.markChildrenCascaded flowId done)
  | _ => none

/-- What the next call does to its child store. -/
def Proc.childOp (known : Bool) : Proc V → Option (Op V)
  | .fanOut _ _ _ _ (.enqueue (spec :: _)) =>
    if known then some (.enqueue spec.request .counter) else none
  | .reconcile _ child .enqueue => some (.enqueue child.request .counter)
  | .reconcile _ child .cancel => child.request.id.map .cancel
  | .cascade _ (child :: _) _ => if known then child.childJobId.map .cancel else none
  | _ => none

def Deployment.fleet (s : Deployment V) (key : String) : Fleet V :=
  ⟨s.parent, s.children key, ⟨[], []⟩, s.procs⟩

/-- A landed fan-out works for the newest landing; a report that `getChild` read is of the job that is
stored. -/
def Deployment.nextTag (s : Deployment V) (p : ℕ) : Proc V → ℕ
  | .fanOut id _ _ _ .ack => s.landings id
  | .reconcile _ child .getChild => match child.request.id with
    | some id =>
      if (s.children child.storeKey).jobs.has id then s.born child.storeKey id else s.tags p
    | none => s.tags p
  | _ => s.tags p

/-- The stores after the next call of procedure `p`. -/
def Deployment.exchange (parentKey : String) (s : Deployment V) (p : ℕ) (now : Millis)
    (known : Bool) : Deployment V :=
  let t := match (s.procs p).parentOp with
    | some op => s.parentExec now op
    | none => s
  match (s.procs p).childOp known with
  | some op => t.childExec parentKey (s.procs p).store now op (s.tags p)
  | none => t

/-- A call without an answer is made again. -/
def Deployment.call (parentKey : String) (s : Deployment V) (p : ℕ) (now : Millis)
    (known answered : Bool) : Deployment V :=
  let proc := s.procs p
  let t := s.exchange parentKey p now known
  if answered then
    { t with
      procs := Function.update t.procs p ((s.fleet proc.store).call proc.store now known proc).next
      tags := Function.update t.tags p (t.nextTag p proc) }
  else t

/-! ## Events -/

inductive DeployEvent (V : Type)
  | parent (now : Millis) (op : Op V)
  | child (key : String) (now : Millis) (op : Op V)
  | sweep (now : Millis) (options : FlowSweepOptions)
  | relay (event : RelayEvent V)
  | start (p : ℕ) (proc : Proc V)
  | take (p i : ℕ)
  | forget (i : ℕ)
  | call (p : ℕ) (now : Millis) (known answered : Bool)
  | stop (p : ℕ)

def RelayEvent.relay? : RelayEvent V → Option ℕ
  | .peek relay _ | .deliver relay _ _ | .delete relay _ | .skip relay | .turnPage relay
  | .crash relay => some relay
  | _ => none

/-- A relay drains the outbox of its `home` store. -/
def Deployment.relayStep (parentKey : String) (home : ℕ → String) (s : Deployment V)
    (event : RelayEvent V) : Option (Deployment V) :=
  event.relay?.bind fun relay =>
    (relayAct parentKey ⟨s.parent, s.children (home relay), ∅, s.relays⟩ event).map fun two =>
      { s with
        parent := two.parent
        children := Function.update s.children (home relay) two.child
        relays := two.relays }

def deployAct (parentKey : String) (home : ℕ → String) (s : Deployment V) :
    DeployEvent V → Option (Deployment V)
  | .parent now op => some (s.parentExec now op)
  | .child key now op => some (s.childExec parentKey key now op 0)
  | .sweep now options =>
    let work := ungroup (flowSweepWork s.parent.store now options).1.reconcile
    some { s.parentExec now (.flowSweepWork options) with
      handed := s.handed ++ work.map fun item => (s.landings item.1, item) }
  | .relay event => s.relayStep parentKey home event
  | .start p proc => some { s with procs := Function.update s.procs p proc }
  | .take p i => (s.handed[i]?).map fun item =>
      { s with
        handed := s.handed.eraseIdx i
        procs := Function.update s.procs p (.reconcile item.2.1 item.2.2 .getChild)
        tags := Function.update s.tags p item.1 }
  | .forget i => some { s with handed := s.handed.eraseIdx i }
  | .call p now known answered => some (s.call parentKey p now known answered)
  | .stop p => some { s with procs := Function.update s.procs p .idle }

def requestOf : Op V → Option (EnqueueRequest V)
  | .enqueue request _ | .resumeEnqueue request _ | .tickSchedule _ _ _ request => some request
  | _ => none

/-- The operation asks for a new job under this id. -/
def Draws (c : Store V) (now : Millis) (id : JobId) : Op V → Prop
  | .enqueue request ids =>
    enqueueDecision c now request = none ∧ (assignId c request ids).1 = some id
  | .resumeEnqueue _ candidate => candidate = id
  | .tickSchedule _ _ _ request => request.id = some id
  | _ => False

/-- Fan-outs and child results go through procedures and relays, fan-outs are of what `buildSpecs`
built, and envelopes are set by the flow runtime only. -/
def DeployEvent.Legal (parentKey : String) (s : Deployment V) : DeployEvent V → Prop
  | .parent _ op => op.reports = [] ∧
      ∀ id token failFast children, op ≠ .ack id token (.fanOut failFast children)
  | .child _ _ op => ∀ request envelope, requestOf op = some request →
      request.parent = some envelope → envelope.parentStoreKey ≠ parentKey
  | .start p proc => s.procs p = .idle ∧ match proc with
      | .fanOut id _ _ children .ack => Built parentKey id children
      | .cascade _ _ [] => True
      | _ => False
  | .take p _ => s.procs p = .idle
  | _ => True

def DeployStep (parentKey : String) (home : ℕ → String) (s : Deployment V) (e : DeployEvent V)
    (t : Deployment V) : Prop :=
  e.Legal parentKey s ∧ deployAct parentKey home s e = some t

/-! ## What is on its way -/

/-- The children a procedure may still enqueue or report. -/
def Proc.specs : Proc V → List (JobId × FlowChildSpec V)
  | .fanOut id _ _ children .check => children.map (id, ·)
  | .fanOut id _ _ _ (.enqueue rest) => rest.map (id, ·)
  | .reconcile flowId child _ => [(flowId, child)]
  | _ => []

def Names (parentKey : String) (flowId : JobId) (key : String) (entry : OutboxEntry V) : Prop :=
  entry.parentStoreKey = parentKey ∧ entry.report.flowId = flowId ∧ entry.report.childKey = key

section

variable (parentKey : String) (home : ℕ → String)

/-- Something of landing `n` can still give the row an outcome. -/
inductive Carries (s : Deployment V) (flowId : JobId) (key : String) : ℕ → Prop
  | job (store : String) (h : (s.children store).jobs.has (childJobId parentKey flowId key) = true) :
      Carries s flowId key (s.born store (childJobId parentKey flowId key))
  | entry (store : String) (entry : OutboxEntry V) (h : entry ∈ (s.children store).outbox)
      (hn : Names parentKey flowId key entry) : Carries s flowId key (s.sent store entry)
  | held (relay : ℕ) (group : String × List (OutboxEntry V)) (entry : OutboxEntry V)
      (hg : group ∈ (s.relays relay).phase.groups) (h : entry ∈ group.2)
      (hn : Names parentKey flowId key entry) : Carries s flowId key (s.sent (home relay) entry)
  | proc (p : ℕ) (spec : FlowChildSpec V) (h : (flowId, spec) ∈ (s.procs p).specs)
      (hkey : spec.childKey = key) : Carries s flowId key (s.tags p)
  | handed (n : ℕ) (spec : FlowChildSpec V) (h : (n, flowId, spec) ∈ s.handed)
      (hkey : spec.childKey = key) : Carries s flowId key n

/-- A fan-out that lands finds nothing left under its children's names, and nothing but the flow
runtime enqueues a job under the id of a child that is waited for. -/
def Clean (s : Deployment V) : DeployEvent V → Prop
  | .call p now _ _ => ∀ op id children, (s.procs p).parentOp = some op →
      landing s.parent.store now op = some (id, children) → ∀ spec ∈ children, ∀ n,
        ¬ Carries parentKey home s id spec.childKey n
  | .child store now op => ∀ flowId key, Waits s.parent.store flowId key →
      (s.children store).jobs.get? (childJobId parentKey flowId key) = none →
      ¬ Draws (s.children store) now (childJobId parentKey flowId key) op
  | _ => True

def CleanStep (s : Deployment V) (e : DeployEvent V) (t : Deployment V) : Prop :=
  DeployStep parentKey home s e t ∧ Clean parentKey home s e

/-- The batch of child results a step gives the parent store, each with the landing its child was
enqueued for. -/
def Deployment.delivery (s : Deployment V) :
    DeployEvent V → Option (Millis × List (FlowChildReport V × ℕ))
  | .relay (.deliver relay now _) => match (s.relays relay).phase with
    | .delivering (group :: _) _ =>
      if group.1 = parentKey then
        some (now, group.2.map fun entry => (entry.report, s.sent (home relay) entry))
      else none
    | _ => none
  | .call p now _ _ => match s.procs p with
    | .reconcile flowId child (.report outcome exit failedReason) =>
      some (now, [(⟨flowId, child.childKey, outcome, exit, failedReason⟩, s.tags p)])
    | _ => none
  | _ => none

/-- Every report that the step applies is of a child enqueued for the newest landing of its flow. -/
def OwnResults (s : Deployment V) (e : DeployEvent V) : Prop :=
  ∀ now batch (i : ℕ) report n, s.delivery parentKey home e = some (now, batch) →
    batch[i]? = some (report, n) →
    AppliedAt (recordChildResults s.parent.store now (batch.map Prod.fst)).1 i →
    n = s.landings report.flowId

/-- The batch is what the step gives `recordChildResults`. -/
def StoresDelivery (s : Deployment V) (e : DeployEvent V) : Prop :=
  ∀ t now batch, deployAct parentKey home s e = some t →
    s.delivery parentKey home e = some (now, batch) →
    t.parent.store = (recordChildResults s.parent.store now (batch.map Prod.fst)).2

/-- What is on its way for a pending row is of the newest landing. -/
def Current (s : Deployment V) : Prop :=
  ∀ flowId key n, Waits s.parent.store flowId key → Carries parentKey home s flowId key n →
    n = s.landings flowId

/-- The id and envelope `buildSpecs` gives a child. -/
def Specced (flowId : JobId) (spec : FlowChildSpec V) : Prop :=
  spec.request.id = some (childJobId parentKey flowId spec.childKey) ∧
    ∃ flowName depth, spec.request.parent =
      some ⟨flowName, flowId, spec.childKey, parentKey, depth⟩

/-- A child store whose children of this parent store are under their own ids. -/
structure ChildOk (c : Store V) : Prop where
  flow : FlowInv Covers c
  own : ∀ id job envelope, c.jobs.get? id = some job → job.parent = some envelope →
    envelope.parentStoreKey = parentKey →
    id = childJobId parentKey envelope.flowId envelope.childKey
  entries : ∀ e ∈ c.outbox, e.id ≤ c.outboxSeq

structure ParentOk (s : Store V) : Prop where
  flow : FlowInv Covers s
  rows : s.toCore.RowsKeyed
  built : ∀ id children, manifest? s id = some children → Built parentKey id children

/-- The specs in the hands of a procedure are built. -/
structure WorkOk (proc : Proc V) : Prop where
  ack : ∀ id token failFast children, proc = .fanOut id token failFast children .ack →
    Built parentKey id children
  specs : ∀ flowId spec, (flowId, spec) ∈ proc.specs → Specced parentKey flowId spec

structure DeployOk (s : Deployment V) : Prop where
  parent : ParentOk parentKey s.parent.store
  child : ∀ store, ChildOk parentKey (s.children store)
  held : ∀ relay, ∀ group ∈ (s.relays relay).phase.groups, ∀ entry ∈ group.2,
    entry.parentStoreKey = group.1 ∧ entry.id ≤ (s.children (home relay)).outboxSeq
  procs : ∀ p, WorkOk parentKey (s.procs p)
  handed : ∀ n flowId spec, (n, flowId, spec) ∈ s.handed → Specced parentKey flowId spec

end

/-! ## The parent store -/

section

variable {parentKey : String} {home : ℕ → String}

/-- The manifest after an operation is the old one or the one it lands. -/
theorem ParentOk.manifest?_exec {s : Store V} (h : ParentOk parentKey s) {now : Millis} {op : Op V}
    (hfans : op.FansOut (Built parentKey)) {id : JobId} {children : List (FlowChildSpec V)}
    (hm : manifest? (exec s now op) id = some children) :
    manifest? s id = some children ∨ landing s now op = some (id, children) := by
  have hpresent : (exec s now op).jobs.get? id ≠ none := fun hj => by
    have habsent := manifest?_of_absent (h.flow.exec covers_accounts now op.fans_all) hj
    rw [hm] at habsent
    cases habsent
  by_cases hl : ∃ children', landing s now op = some (id, children')
  · obtain ⟨children', hl⟩ := hl
    obtain ⟨token, failFast, job, rfl, hj, ha, hf, heq⟩ := landing_ack h.flow hl
    obtain rfl := h.flow.keyed _ _ hj
    have hkeys : DistinctKeys children' := hfans.keys
    have hpersist := ackFanOut_manifest? h.flow.keyed now failFast hkeys hj ha hf
    rw [← heq] at hpersist
    rcases hpersist with hnone | hsome
    · exact absurd hnone hpresent
    · cases hm.symm.trans hsome
      exact .inr hl
  · rw [not_exists] at hl
    rcases unlanded hl with heq | hop
    · exact .inl (by rwa [heq] at hm)
    · rcases exec_manifest? h.flow now op hop with hnone | heq
      · exact absurd hnone hpresent
      · exact .inl (heq.symm.trans hm)

theorem ParentOk.exec {s : Store V} (h : ParentOk parentKey s) (now : Millis) {op : Op V}
    (hfans : op.FansOut (Built parentKey)) : ParentOk parentKey (exec s now op) := by
  refine ⟨h.flow.exec covers_accounts now op.fans_all, exec_rowsKeyed h.flow.keyed now op h.rows,
    fun id children hm => ?_⟩
  rcases h.manifest?_exec hfans hm with hold | hl
  · exact h.built id children hold
  · obtain ⟨token, failFast, job, rfl, _⟩ := landing_ack h.flow hl
    exact hfans

/-- A pending row was pending before, or is of a fan-out that lands. -/
theorem ParentOk.waits_exec {s : Store V} (h : ParentOk parentKey s) {now : Millis} {op : Op V}
    (hfans : op.FansOut (Built parentKey)) {id : JobId} {key : String}
    (hw : Waits (Memory.exec s now op) id key) :
    (Waits s id key ∧ ∀ children, landing s now op ≠ some (id, children)) ∨
      ∃ children spec, landing s now op = some (id, children) ∧ spec ∈ children ∧
        spec.childKey = key := by
  by_cases hl : ∃ children, landing s now op = some (id, children)
  · obtain ⟨children, hl⟩ := hl
    obtain ⟨row, hrow, _⟩ := waits_iff.mp hw
    obtain ⟨children', hm, hmem⟩ := row?_spec hrow
    have hkey := ((h.exec now hfans).rows.row? hrow).2
    rcases h.manifest?_exec hfans hm with hold | hl'
    · obtain ⟨_, _, job, rfl, hj, _, hf, _⟩ := landing_ack h.flow hl
      have hnone := (h.flow.booked id).manifest?_isSome hj
      rw [hf, show (s.toCore.view id).manifest? = manifest? s id from rfl, hold] at hnone
      cases hnone
    · cases hl.symm.trans hl'
      exact .inr ⟨children, specOf row, hl, hmem, hkey⟩
  · rw [not_exists] at hl
    refine .inl ⟨?_, hl⟩
    rcases unlanded hl with heq | hop
    · rwa [heq] at hw
    · exact exec_waits h.flow now op hop hw

theorem ParentOk.specced {s : Store V} (h : ParentOk parentKey s) {flowId : JobId} {key : String}
    {row : MemFlowChild V} (hrow : s.row? flowId key = some row) :
    Specced parentKey flowId (specOf row) := by
  obtain ⟨children, hm, hmem⟩ := row?_spec hrow
  exact ⟨(h.built flowId children hm).id _ hmem, (h.built flowId children hm).parent _ hmem⟩

theorem parentOk_empty : ParentOk parentKey (Store.empty : Store V) where
  flow := .empty Covers
  rows := fun _ _ _ _ hr => by cases hr
  built := fun _ _ hm => by cases hm

theorem built_specced {id : JobId} {children : List (FlowChildSpec V)}
    (h : Built parentKey id children) {spec : FlowChildSpec V} (hs : spec ∈ children) :
    Specced parentKey id spec :=
  ⟨h.id spec hs, h.parent spec hs⟩

end

/-! ## A child store -/

section

variable {parentKey : String}

/-- A new entry is of a child that is stored under its own id. -/
theorem ChildOk.new_entry {c : Store V} (h : ChildOk parentKey c) (now : Millis) (op : Op V)
    {e : OutboxEntry V} (he : e ∈ (exec c now op).outbox) :
    e ∈ c.outbox ∨ c.outboxSeq < e.id ∧ e.id ≤ (exec c now op).outboxSeq ∧
      (e.parentStoreKey = parentKey →
        c.jobs.has (childJobId parentKey e.report.flowId e.report.childKey) = true) := by
  obtain ⟨ended, hout, hseq, _, heach, _⟩ := exec_outbox h.flow now op
  rw [hout, List.mem_append] at he
  rcases he with he | he
  · exact .inl (List.mem_of_mem_filter he)
  · obtain ⟨hlt, hle⟩ := mem_reports he
    refine .inr ⟨hlt, hseq ▸ hle, fun hparent => ?_⟩
    obtain ⟨r, hr, envelope, henv, hstore, hflow, hkey⟩ := reports_envelope he
    obtain ⟨_, ⟨job, _, hj, _, _, _, hp, _⟩, _⟩ := heach r hr
    have hid := h.own r.id job envelope hj (hp.symm.trans henv) (hstore.symm.trans hparent)
    rw [hflow, hkey, ← hid]
    exact JsMap.has_eq_true.mpr ⟨job, hj⟩

theorem outboxSeq_le (c : Store V) (h : FlowInv Covers c) (now : Millis) (op : Op V) :
    c.outboxSeq ≤ (exec c now op).outboxSeq := by
  obtain ⟨ended, _, hseq, _⟩ := exec_outbox h now op
  omega

theorem ChildOk.exec {c : Store V} (h : ChildOk parentKey c) (now : Millis) (op : Op V)
    (hmakes : ∀ id request t seq envelope, Allows now op (.insert id request t seq) →
      request.parent = some envelope → envelope.parentStoreKey = parentKey →
      id = childJobId parentKey envelope.flowId envelope.childKey) :
    ChildOk parentKey (exec c now op) := by
  refine ⟨h.flow.exec covers_accounts now op.fans_all, ?_, ?_⟩
  · intro id job' envelope hj' hp hkey
    rcases exec_envelope h.flow.keyed now op hj' with ⟨job, hj, heq⟩ | ⟨request, t, seq, hl, heq⟩
    · exact h.own id job envelope hj (heq.symm.trans hp) hkey
    · exact hmakes id request t seq envelope hl (heq.symm.trans hp) hkey
  · intro e he
    have hle := outboxSeq_le c h.flow now op
    rcases h.new_entry now op he with hold | ⟨_, hnew, _⟩
    · have hentry := h.entries e hold
      omega
    · exact hnew

theorem insertFresh_absent {c : Store V} (now : Millis) (request : EnqueueRequest V) {id id' : JobId}
    (hne : id' ≠ id) (hbefore : c.jobs.get? id' = none) :
    (insertFresh c now request id).jobs.get? id' = none := by
  have hjobs : (insertFresh c now request id).jobs = (insertJobRecord c id request now).jobs := by
    unfold insertFresh
    cases request.dedupe <;> rfl
  rw [hjobs, insertJobRecord_get?, if_neg hne, hbefore]

/-- A job that was not there is one the operation asked for. -/
theorem exec_undrawn {c : Store V} (hk : c.toCore.Keyed) {now : Millis} {op : Op V} {id : JobId}
    (hbefore : c.jobs.get? id = none) (hop : ¬ Draws c now id op) :
    (exec c now op).jobs.get? id = none := by
  cases op with
  | enqueue request ids =>
    show (enqueueOne c now request ids).2.jobs.get? id = none
    have hspec := enqueueOne_spec c now request ids
    generalize (enqueueOne c now request ids).1 = result, (enqueueOne c now request ids).2 = c'
      at hspec
    cases hspec with
    | duplicate | pending | exhausted => exact hbefore
    | @replaced dedupe entry keyed _ _ _ hj =>
      have hne : id ≠ (replaceJob keyed request now).id := by
        rintro rfl
        rw [show (replaceJob keyed request now).id = keyed.id from rfl, hk _ _ hj, hj] at hbefore
        cases hbefore
      rw [signalWake_toCore, setWindow_toCore, putJob_toCore, putJob_get?, if_neg hne]
      exact hbefore
    | windowed =>
      split
      · rwa [setWindow_toCore]
      · exact hbefore
    | @inserted new counter _ _ _ _ hdec ha =>
      exact insertFresh_absent now request (fun heq => hop ⟨hdec, heq ▸ ha⟩) hbefore
  | resumeEnqueue request candidate =>
    show (resumeEnqueue c now request candidate).2.jobs.get? id = none
    rcases resumeEnqueue_cases c now request candidate with heq | ⟨_, heq⟩
    · rwa [heq]
    · rw [heq]
      exact insertFresh_absent now request (fun hid => hop hid.symm) hbefore
  | tickSchedule key expectedRunAt nextRunAt request =>
    show (tickSchedule c now key expectedRunAt nextRunAt request).2.jobs.get? id = none
    rcases tickSchedule_jobs c now key expectedRunAt nextRunAt request with
      hjobs | ⟨new, hnew, _, hjobs⟩
    · rwa [hjobs]
    · have hne : id ≠ new := fun heq => hop (heq ▸ hnew)
      rwa [hjobs, if_neg hne]
  | _ =>
    refine Memory.exec_absent hk now _ (fun l hl => ?_) hbefore
    cases hl <;> exact fun h => h

theorem childOk_empty : ChildOk parentKey (Store.empty : Store V) where
  flow := .empty Covers
  own := fun _ _ _ hj => by cases hj
  entries := fun _ he => by cases he

end

/-! ## Deployments -/

section

variable {parentKey : String} {home : ℕ → String} {s : Deployment V}

structure Tidy (parentKey : String) (home : ℕ → String) (s : Deployment V) : Prop where
  ok : DeployOk parentKey home s
  current : Current parentKey home s

@[simp] theorem childExec_children (key : String) (now : Millis) (op : Op V) (tag : ℕ)
    (store : String) : (s.childExec parentKey key now op tag).children store =
      if store = key then exec (s.children key) now op else s.children store := by
  simp only [Deployment.childExec, Function.update_apply]

theorem childExec_outboxSeq_le (h : DeployOk parentKey home s) (key : String) (now : Millis)
    (op : Op V) (tag : ℕ) (store : String) :
    (s.children store).outboxSeq ≤
      ((s.childExec parentKey key now op tag).children store).outboxSeq := by
  rw [childExec_children]
  split
  · rename_i hstore
    rw [hstore]
    exact outboxSeq_le _ (h.child key).flow now op
  · exact le_rfl

/-- An entry keeps its landing once it is in an outbox. -/
theorem childExec_sent {key : String} {now : Millis} {op : Op V} {tag : ℕ} {store : String}
    {entry : OutboxEntry V} (h : entry.id ≤ (s.children store).outboxSeq) :
    (s.childExec parentKey key now op tag).sent store entry = s.sent store entry := by
  simp only [Deployment.childExec, Function.update_apply]
  split
  · rename_i hstore
    rw [hstore] at h ⊢
    exact if_neg (by omega)
  · rfl

/-- What is on its way after an operation on a child store was so before, by the landing its new job
is tagged with. -/
theorem DeployOk.carries_childExec (h : DeployOk parentKey home s) {key : String} {now : Millis}
    {op : Op V} {tag : ℕ} {flowId : JobId} {childKey : String}
    (hfresh : (s.children key).jobs.has (childJobId parentKey flowId childKey) = false →
      (exec (s.children key) now op).jobs.has (childJobId parentKey flowId childKey) = true →
      Carries parentKey home s flowId childKey tag) {n : ℕ}
    (hc : Carries parentKey home (s.childExec parentKey key now op tag) flowId childKey n) :
    Carries parentKey home s flowId childKey n := by
  cases hc with
  | job store hhas =>
    rw [childExec_children] at hhas
    simp only [Deployment.childExec, Function.update_apply]
    split at hhas
    · rename_i hstore
      subst hstore
      rw [if_pos rfl]
      split
      · rename_i hnew
        exact hfresh hnew.1 hnew.2
      · rename_i hold
        refine .job store ?_
        by_contra hno
        exact hold ⟨Bool.eq_false_iff.mpr hno, hhas⟩
    · rename_i hstore
      rw [if_neg hstore]
      exact .job store hhas
  | entry store entry hmem hn =>
    by_cases hold : entry ∈ (s.children store).outbox
    · rw [childExec_sent ((h.child store).entries entry hold)]
      exact .entry store entry hold hn
    · rw [childExec_children] at hmem
      split at hmem
      · rename_i hstore
        subst hstore
        rcases (h.child store).new_entry now op hmem with hmem | ⟨hlt, _, hhas⟩
        · exact absurd hmem hold
        · have hhas := hhas hn.1
          simp only [Deployment.childExec, Function.update_apply, if_true, if_pos hlt]
          rw [hn.2.1, hn.2.2] at hhas ⊢
          exact .job store hhas
      · exact absurd hmem hold
  | held relay group entry hg hmem hn =>
    rw [childExec_sent (h.held relay group hg entry hmem).2]
    exact .held relay group entry hg hmem hn
  | proc p spec hspec hkey => exact .proc p spec hspec hkey
  | handed n spec hspec hkey => exact .handed n spec hspec hkey

theorem Tidy.childExec (h : Tidy parentKey home s) {key : String} {now : Millis} {op : Op V}
    {tag : ℕ}
    (hmakes : ∀ id request t seq envelope, Allows now op (.insert id request t seq) →
      request.parent = some envelope → envelope.parentStoreKey = parentKey →
      id = childJobId parentKey envelope.flowId envelope.childKey)
    (hfresh : ∀ flowId childKey, Waits s.parent.store flowId childKey →
      (s.children key).jobs.has (childJobId parentKey flowId childKey) = false →
      (exec (s.children key) now op).jobs.has (childJobId parentKey flowId childKey) = true →
      Carries parentKey home s flowId childKey tag) :
    Tidy parentKey home (s.childExec parentKey key now op tag) where
  ok := by
    refine ⟨h.ok.parent, fun store => ?_, fun relay group hg entry he => ?_, h.ok.procs,
      h.ok.handed⟩
    · rw [childExec_children]
      split
      · exact (h.ok.child key).exec now op hmakes
      · exact h.ok.child store
    · obtain ⟨hkey, hle⟩ := h.ok.held relay group hg entry he
      exact ⟨hkey, hle.trans (childExec_outboxSeq_le h.ok key now op tag (home relay))⟩
  current := fun flowId childKey n hw hc =>
    h.current flowId childKey n hw (h.ok.carries_childExec (hfresh flowId childKey hw) hc)

theorem landed_self {now : Millis} {op : Op V} {id : JobId}
    (h : ∀ children, landing s.parent.store now op ≠ some (id, children)) :
    (s.parentExec now op).landings id = s.landings id := by
  unfold Deployment.parentExec
  cases hl : landing s.parent.store now op with
  | none => rfl
  | some landed =>
    have hne : id ≠ landed.1 := by
      rintro rfl
      exact h landed.2 hl
    exact Function.update_of_ne hne ..

theorem Tidy.parentExec (h : Tidy parentKey home s) {now : Millis} {op : Op V}
    (hfans : op.FansOut (Built parentKey))
    (hclean : ∀ id children, landing s.parent.store now op = some (id, children) →
      ∀ spec ∈ children, ∀ n, ¬ Carries parentKey home s id spec.childKey n) :
    Tidy parentKey home (s.parentExec now op) where
  ok := ⟨h.ok.parent.exec now hfans, h.ok.child, h.ok.held, h.ok.procs, h.ok.handed⟩
  current := by
    intro flowId key n hw hc
    have hbefore : Carries parentKey home s flowId key n := by
      cases hc with
      | job store hhas => exact .job store hhas
      | entry store entry hmem hn => exact .entry store entry hmem hn
      | held relay group entry hg hmem hn => exact .held relay group entry hg hmem hn
      | proc p spec hspec hkey => exact .proc p spec hspec hkey
      | handed n spec hspec hkey => exact .handed n spec hspec hkey
    rcases h.ok.parent.waits_exec hfans hw with ⟨hw, hl⟩ | ⟨children, spec, hl, hspec, rfl⟩
    · rw [landed_self hl]
      exact h.current flowId key n hw hbefore
    · exact absurd hbefore (hclean flowId children hl spec hspec n)

/-- A step that only moves relays, procedures and handed work, and drops outbox entries. -/
theorem Current.moved {t : Deployment V} (h : Current parentKey home s) (hparent : t.parent = s.parent)
    (hjobs : ∀ store, (t.children store).jobs = (s.children store).jobs)
    (hout : ∀ store, ∀ e ∈ (t.children store).outbox, e ∈ (s.children store).outbox)
    (hlandings : t.landings = s.landings)
    (hborn : t.born = s.born) (hsent : t.sent = s.sent)
    (hheld : ∀ i, ∀ group ∈ (t.relays i).phase.groups, ∀ entry ∈ group.2,
      entry ∈ (s.children (home i)).outbox ∨
        ∃ group' ∈ (s.relays i).phase.groups, entry ∈ group'.2)
    (hspecs : ∀ p flowId spec, (flowId, spec) ∈ (t.procs p).specs →
      Carries parentKey home s flowId spec.childKey (t.tags p) ∨ t.tags p = s.landings flowId)
    (hhanded : ∀ n flowId spec, (n, flowId, spec) ∈ t.handed →
      (n, flowId, spec) ∈ s.handed ∨ n = s.landings flowId) : Current parentKey home t := by
  intro flowId key n hw hc
  rw [hparent] at hw
  rw [hlandings]
  cases hc with
  | job store hhas =>
    rw [hjobs] at hhas
    rw [hborn]
    exact h flowId key _ hw (.job store hhas)
  | entry store entry hmem hn =>
    rw [hsent]
    exact h flowId key _ hw (.entry store entry (hout store entry hmem) hn)
  | held i group entry hg hmem hn =>
    rw [hsent]
    rcases hheld i group hg entry hmem with hout | ⟨group', hg', he'⟩
    · exact h flowId key _ hw (.entry (home i) entry hout hn)
    · exact h flowId key _ hw (.held i group' entry hg' he' hn)
  | proc p spec hspec hkey =>
    rcases hspecs p flowId spec hspec with hc | hlast
    · exact h flowId key _ hw (hkey ▸ hc)
    · exact hlast
  | handed n spec hspec hkey =>
    rcases hhanded n flowId spec hspec with hold | hlast
    · exact h flowId key _ hw (.handed n spec hold hkey)
    · exact hlast

/-- A procedure goes on with children whose landing is known. -/
theorem Tidy.setProc (h : Tidy parentKey home s) (p : ℕ) {proc : Proc V} {t : ℕ}
    (hok : WorkOk parentKey proc)
    (hspecs : ∀ flowId spec, (flowId, spec) ∈ proc.specs →
      Carries parentKey home s flowId spec.childKey t ∨ t = s.landings flowId) :
    Tidy parentKey home
      { s with procs := Function.update s.procs p proc, tags := Function.update s.tags p t } where
  ok := by
    refine ⟨h.ok.parent, h.ok.child, h.ok.held, fun q => ?_, h.ok.handed⟩
    simp only [Function.update_apply]
    split
    · exact hok
    · exact h.ok.procs q
  current := by
    refine h.current.moved rfl (fun _ => rfl) (fun _ _ he => he) rfl rfl rfl (fun i group hg entry he => .inr ⟨group, hg, he⟩) ?_
      fun _ _ _ hmem => .inl hmem
    intro q flowId spec hspec
    simp only [Function.update_apply] at hspec ⊢
    split at hspec
    · rename_i hq
      rw [if_pos hq]
      exact hspecs flowId spec hspec
    · rename_i hq
      rw [if_neg hq]
      exact .inl (.proc q spec hspec rfl)

theorem Tidy.setProc_keep (h : Tidy parentKey home s) (p : ℕ) {proc : Proc V}
    (hok : WorkOk parentKey proc)
    (hspecs : ∀ item ∈ proc.specs, item ∈ (s.procs p).specs) :
    Tidy parentKey home { s with procs := Function.update s.procs p proc } := by
  have hset := h.setProc (t := s.tags p) p hok fun flowId spec hmem =>
    .inl (.proc p spec (hspecs _ hmem) rfl)
  rwa [Function.update_eq_self] at hset

theorem Tidy.setHanded (h : Tidy parentKey home s) {handed : List (ℕ × JobId × FlowChildSpec V)}
    (hnew : ∀ n flowId spec, (n, flowId, spec) ∈ handed → (n, flowId, spec) ∈ s.handed ∨
      n = s.landings flowId ∧ Specced parentKey flowId spec) :
    Tidy parentKey home { s with handed } where
  ok := by
    refine ⟨h.ok.parent, h.ok.child, h.ok.held, h.ok.procs, fun n flowId spec hmem => ?_⟩
    rcases hnew n flowId spec hmem with hold | ⟨_, hspecced⟩
    · exact h.ok.handed n flowId spec hold
    · exact hspecced
  current := h.current.moved rfl (fun _ => rfl) (fun _ _ he => he) rfl rfl rfl (fun i group hg entry he => .inr ⟨group, hg, he⟩)
    (fun p flowId spec hspec => .inl (.proc p spec hspec rfl))
    fun n flowId spec hmem => (hnew n flowId spec hmem).imp_right And.left

/-- A relay moves on; what it holds then is from its outbox or was in its hands. -/
theorem Tidy.setRelay (h : Tidy parentKey home s) (i : ℕ) {relay : Relay V}
    (hheld : ∀ group ∈ relay.phase.groups, ∀ entry ∈ group.2, entry.parentStoreKey = group.1 ∧
      (entry ∈ (s.children (home i)).outbox ∨ ∃ group' ∈ (s.relays i).phase.groups,
        entry ∈ group'.2)) :
    Tidy parentKey home { s with relays := Function.update s.relays i relay } where
  ok := by
    refine ⟨h.ok.parent, h.ok.child, fun j group hg entry he => ?_, h.ok.procs, h.ok.handed⟩
    simp only [Function.update_apply] at hg
    split at hg
    · rename_i hj
      subst hj
      obtain ⟨hkey, hmem | ⟨group', hg', he'⟩⟩ := hheld group hg entry he
      · exact ⟨hkey, (h.ok.child (home j)).entries entry hmem⟩
      · exact ⟨hkey, (h.ok.held j group' hg' entry he').2⟩
    · exact h.ok.held j group hg entry he
  current := by
    refine h.current.moved rfl (fun _ => rfl) (fun _ _ he => he) rfl rfl rfl (fun j group hg entry he => ?_)
      (fun p flowId spec hspec => .inl (.proc p spec hspec rfl)) fun _ _ _ hmem => .inl hmem
    simp only [Function.update_apply] at hg
    split at hg
    · rename_i hj
      subst hj
      exact (hheld group hg entry he).2
    · exact .inr ⟨group, hg, he⟩

theorem Tidy.deleteOutbox (h : Tidy parentKey home s) (store : String) (ids : List ℕ) :
    Tidy parentKey home
      { s with
        children := Function.update s.children store (Memory.deleteOutbox (s.children store) ids) } := by
  have hdropped : ChildOk parentKey (Memory.deleteOutbox (s.children store) ids) :=
    (h.ok.child store).exec 0 (.deleteOutbox ids) fun _ _ _ _ _ hl => by cases hl
  refine ⟨⟨h.ok.parent, fun store' => ?_, fun i group hg entry he => ?_, h.ok.procs, h.ok.handed⟩,
    h.current.moved rfl (fun store' => ?_) (fun store' e he => ?_) rfl rfl rfl
      (fun i group hg entry he => .inr ⟨group, hg, he⟩)
      (fun p flowId spec hspec => .inl (.proc p spec hspec rfl)) fun _ _ _ hmem => .inl hmem⟩
  · simp only [Function.update_apply]
    split
    · exact hdropped
    · exact h.ok.child store'
  · obtain ⟨hkey, hle⟩ := h.ok.held i group hg entry he
    refine ⟨hkey, ?_⟩
    simp only [Function.update_apply]
    split
    · rename_i hi
      rw [hi] at hle
      exact hle
    · exact hle
  · simp only [Function.update_apply]
    split
    · rename_i hi
      rw [hi]
      rfl
    · rfl
  · simp only [Function.update_apply] at he
    split at he
    · rename_i hi
      rw [hi]
      exact List.mem_of_mem_filter he
    · exact he

/-- Child results land no fan-out. -/
theorem Tidy.record (h : Tidy parentKey home s) (now : Millis) (reports : List (FlowChildReport V)) :
    Tidy parentKey home { s with parent := s.parent.exec now (.recordChildResults reports) } := by
  have hexec : Tidy parentKey home (s.parentExec now (.recordChildResults reports)) :=
    h.parentExec trivial fun _ _ hl => by cases hl
  exact hexec

theorem peekPage_held {c : Store V} {routes : List String} {after : Option ℕ} :
    ∀ group ∈ (peekPage c routes after).phase.groups, ∀ entry ∈ group.2,
      entry.parentStoreKey = group.1 ∧ entry ∈ c.outbox := by
  unfold peekPage
  simp only
  split
  · intro group hg
    cases hg
  · intro group hg entry he
    obtain ⟨hmem, hkey⟩ := groupByStore_mem routes _ group hg entry he
    exact ⟨hkey, mem_peekOutbox hmem⟩

theorem Tidy.relayStep (h : Tidy parentKey home s) {event : RelayEvent V} {t : Deployment V}
    (hs : s.relayStep parentKey home event = some t) : Tidy parentKey home t := by
  obtain ⟨i, hi, hs⟩ := Option.bind_eq_some_iff.mp hs
  obtain ⟨two, hact, rfl⟩ := Option.map_eq_some_iff.mp hs
  have hsame : Function.update s.children (home i) (s.children (home i)) = s.children :=
    Function.update_eq_self ..
  have hkeep : ∀ {u : Deployment V}, Tidy parentKey home u → u.relays = s.relays →
      ∀ relay : Relay V, relay.phase.groups ⊆ (s.relays i).phase.groups →
      Tidy parentKey home { u with relays := Function.update u.relays i relay } := by
    intro u hu hrelays relay hsub
    refine hu.setRelay i fun group hg entry he => ?_
    have hg' : group ∈ (u.relays i).phase.groups := by
      rw [hrelays]
      exact hsub hg
    exact ⟨(hu.ok.held i group hg' entry he).1, .inr ⟨group, hg', he⟩⟩
  cases event with
  | parent | child | enqueueChild => cases hi
  | peek j routes =>
    cases hi
    simp only [relayAct] at hact
    split at hact
    · cases hact
      simp only [TwoStores.setRelay, hsame]
      exact h.setRelay i fun group hg entry he =>
        ⟨(peekPage_held group hg entry he).1, .inl (peekPage_held group hg entry he).2⟩
    · cases hact
  | deliver j now answered =>
    cases hi
    simp only [relayAct] at hact
    split at hact
    · rename_i group groups lastPage hphase
      have hdelivered : Tidy parentKey home
          { s with parent := deliverGroup parentKey s.parent now group } := by
        unfold deliverGroup
        split
        · exact h.record now _
        · exact h
      cases answered with
      | false =>
        cases hact
        simp only [Bool.false_eq_true, if_false, hsame]
        exact hdelivered
      | true =>
        cases hact
        simp only [if_true, TwoStores.setRelay, hsame]
        refine hkeep hdelivered rfl ⟨_, .deleting _ groups lastPage⟩ ?_
        rw [hphase]
        exact List.subset_cons_self ..
    · cases hact
  | delete j answered =>
    cases hi
    simp only [relayAct] at hact
    split at hact
    · rename_i ids groups lastPage hphase
      have hdeleted := h.deleteOutbox (home i) ids
      cases answered with
      | false =>
        cases hact
        exact hdeleted
      | true =>
        cases hact
        refine hkeep hdeleted rfl ⟨_, .delivering groups lastPage⟩ ?_
        rw [hphase]
        exact List.Subset.refl _
    · cases hact
  | skip j =>
    cases hi
    simp only [relayAct] at hact
    split at hact
    · rename_i group groups lastPage hphase
      cases hact
      simp only [TwoStores.setRelay, hsame]
      refine hkeep h rfl ⟨_, .delivering groups lastPage⟩ ?_
      rw [hphase]
      exact List.subset_cons_self ..
    · rename_i ids groups lastPage hphase
      cases hact
      simp only [TwoStores.setRelay, hsame]
      refine hkeep h rfl ⟨_, .delivering groups lastPage⟩ ?_
      rw [hphase]
      exact List.Subset.refl _
    · cases hact
  | turnPage j =>
    cases hi
    simp only [relayAct] at hact
    split at hact
    · cases hact
      simp only [TwoStores.setRelay, hsame]
      exact hkeep h rfl ⟨_, .peeking⟩ (List.nil_subset _)
    · cases hact
  | crash j =>
    cases hi
    cases hact
    simp only [TwoStores.setRelay, hsame]
    exact hkeep h rfl .start (List.nil_subset _)

/-- A procedure enqueues a child in its hands, or cancels one. -/
theorem Proc.childOp_cases {proc : Proc V} {known : Bool} {op : Op V}
    (h : proc.childOp known = some op) :
    (∃ id, op = .cancel id) ∨
      ∃ flowId spec, (flowId, spec) ∈ proc.specs ∧ op = .enqueue spec.request .counter := by
  cases proc with
  | idle => cases h
  | fanOut id token failFast children stage =>
    cases stage with
    | ack | check => cases h
    | enqueue rest =>
      cases rest with
      | nil => cases h
      | cons spec rest =>
        cases known with
        | false => cases h
        | true =>
          cases h
          exact .inr ⟨id, spec, List.mem_cons_self, rfl⟩
  | reconcile flowId child stage =>
    cases stage with
    | getChild | before | after | report => cases h
    | enqueue =>
      cases h
      exact .inr ⟨flowId, child, List.mem_singleton_self _, rfl⟩
    | cancel =>
      obtain ⟨id, _, rfl⟩ := Option.map_eq_some_iff.mp h
      exact .inl ⟨id, rfl⟩
  | cascade flowId children done =>
    cases children with
    | nil => cases h
    | cons child rest =>
      cases known with
      | false => cases h
      | true =>
        obtain ⟨id, _, rfl⟩ := Option.map_eq_some_iff.mp h
        exact .inl ⟨id, rfl⟩

theorem WorkOk.fansOut {proc : Proc V} (h : WorkOk parentKey proc) {op : Op V}
    (hop : proc.parentOp = some op) : op.FansOut (Built parentKey) := by
  cases proc with
  | idle => cases hop
  | fanOut id token failFast children stage =>
    cases stage with
    | ack =>
      cases hop
      exact h.ack id token failFast children rfl
    | check | enqueue => cases hop
  | reconcile flowId child stage =>
    cases stage with
    | report =>
      cases hop
      trivial
    | _ => cases hop
  | cascade flowId children done =>
    cases children with
    | nil =>
      cases hop
      trivial
    | cons => cases hop

/-- A procedure enqueues under its tag. -/
theorem Tidy.childCall (h : Tidy parentKey home s) (p : ℕ) (now : Millis) {known : Bool} {op : Op V}
    (hop : (s.procs p).childOp known = some op) :
    Tidy parentKey home (s.childExec parentKey (s.procs p).store now op (s.tags p)) := by
  rcases Proc.childOp_cases hop with ⟨id, rfl⟩ | ⟨flowId, spec, hspec, rfl⟩
  · refine h.childExec (fun _ _ _ _ _ hl => by cases hl) fun f key _ hbefore hafter => ?_
    have habsent := exec_absent (h.ok.child _).flow.keyed now (.cancel id)
      (fun _ => cancel_not_inserts) (JsMap.has_eq_false.mp hbefore)
    rw [JsMap.has_eq_false.mpr habsent] at hafter
    cases hafter
  · obtain ⟨hid, flowName, depth, hparent⟩ := (h.ok.procs p).specs flowId spec hspec
    refine h.childExec (fun id request t seq envelope hl hp _ => ?_) fun f key _ hbefore hafter => ?_
    · cases hl with
      | enqueue _ hids =>
        cases hparent.symm.trans hp
        exact (hids _ hid).symm
    · by_cases heq : childJobId parentKey f key = childJobId parentKey flowId spec.childKey
      · obtain ⟨_, rfl, rfl⟩ := childJobId_injective heq
        exact .proc p spec hspec rfl
      · have habsent := enqueue_absent (h.ok.child _).flow.keyed now .counter hid heq
          (JsMap.has_eq_false.mp hbefore)
        rw [JsMap.has_eq_false.mpr habsent] at hafter
        cases hafter

theorem Tidy.exchange (h : Tidy parentKey home s) {p : ℕ} {now : Millis} {known answered : Bool}
    (hclean : Clean parentKey home s (.call p now known answered)) :
    Tidy parentKey home (s.exchange parentKey p now known) := by
  have hparent : Tidy parentKey home (match (s.procs p).parentOp with
      | some op => s.parentExec now op
      | none => s) := by
    cases hop : (s.procs p).parentOp with
    | none => exact h
    | some op =>
      exact h.parentExec ((h.ok.procs p).fansOut hop) fun id children hl =>
        hclean op id children hop hl
  unfold Deployment.exchange
  cases hchild : (s.procs p).childOp known with
  | none => exact hparent
  | some op =>
    simp only
    cases hop : (s.procs p).parentOp with
    | none => exact h.childCall p now hchild
    | some op' =>
      rw [hop] at hparent
      exact hparent.childCall p now hchild

theorem exchange_procs (p q : ℕ) (now : Millis) (known : Bool) :
    (s.exchange parentKey p now known).procs q = s.procs q := by
  unfold Deployment.exchange
  cases (s.procs p).parentOp <;> cases (s.procs p).childOp known <;> rfl

theorem enqueueRest_specs {id : JobId} {token : String} {failFast : Bool}
    {children rest : List (FlowChildSpec V)} {item : JobId × FlowChildSpec V}
    (h : item ∈ (enqueueRest id token failFast children rest).specs) : item ∈ rest.map (id, ·) := by
  unfold enqueueRest at h
  split at h
  · cases h
  · exact h

theorem cascadeRest_specs (flowId : JobId) (children : List CascadeChild) (done : List String) :
    (cascadeRest flowId children done : Proc V).specs = [] := by
  unfold cascadeRest
  split <;> rfl

/-- A procedure goes on with the children in its hands, or with those of a fan-out it acked. -/
theorem call_specs {f : Fleet V} {key : String} {now : Millis} {known : Bool} {proc : Proc V}
    {item : JobId × FlowChildSpec V} (h : item ∈ (f.call key now known proc).next.specs) :
    item ∈ proc.specs ∨ ∃ id token failFast children,
      proc = .fanOut id token failFast children .ack ∧ item ∈ children.map (id, ·) := by
  cases proc with
  | idle => cases h
  | fanOut id token failFast children stage =>
    cases stage with
    | ack =>
      simp only [Fleet.call, fanOutCall] at h
      split at h
      · exact .inr ⟨id, token, failFast, children, rfl, h⟩
      · cases h
      · cases h
    | check =>
      simp only [Fleet.call, fanOutCall] at h
      split at h
      · exact .inl (enqueueRest_specs h)
      · cases h
    | enqueue rest =>
      cases rest with
      | nil => cases h
      | cons spec rest => exact .inl (List.mem_cons_of_mem _ (enqueueRest_specs h))
  | reconcile flowId child stage =>
    have hsame : ∀ {next : Proc V}, item ∈ next.specs →
        (next = .idle ∨ ∃ stage', next = .reconcile flowId child stage') →
        item ∈ (Proc.reconcile flowId child stage).specs := by
      rintro next hmem (rfl | ⟨stage', rfl⟩)
      · cases hmem
      · exact hmem
    refine .inl (hsame h ?_)
    cases stage with
    | getChild =>
      simp only [Fleet.call, reconcileCall]
      split
      · exact .inl rfl
      · split
        · exact .inr ⟨_, rfl⟩
        · split
          · exact .inl rfl
          · exact .inr ⟨_, rfl⟩
    | before | after =>
      simp only [Fleet.call, reconcileCall]
      split
      · first | exact .inr ⟨_, rfl⟩ | exact .inl rfl
      · first | exact .inr ⟨_, rfl⟩ | exact .inl rfl
    | enqueue => exact .inr ⟨_, rfl⟩
    | cancel | report => exact .inl rfl
  | cascade flowId children done =>
    have hnone : (f.call key now known (.cascade flowId children done)).next.specs = [] := by
      cases children with
      | nil => rfl
      | cons child rest =>
        cases known <;> exact cascadeRest_specs ..
    rw [hnone] at h
    cases h

/-- A procedure that is to ack a fan-out after a call was so before. -/
theorem call_ack {f : Fleet V} {key : String} {now : Millis} {known : Bool} {proc : Proc V}
    {id : JobId} {token : String} {failFast : Bool} {children : List (FlowChildSpec V)}
    (h : (f.call key now known proc).next = .fanOut id token failFast children .ack) :
    proc = .fanOut id token failFast children .ack := by
  cases proc with
  | idle => cases h
  | fanOut id' token' failFast' children' stage =>
    cases stage with
    | ack =>
      simp only [Fleet.call, fanOutCall] at h
      split at h
      · cases h
      · cases h
        rfl
      · cases h
    | check =>
      simp only [Fleet.call, fanOutCall, enqueueRest] at h
      split at h
      · split at h <;> cases h
      · cases h
    | enqueue rest =>
      cases rest with
      | nil => cases h
      | cons spec rest =>
        simp only [Fleet.call, fanOutCall, enqueueRest] at h
        split at h <;> cases h
  | reconcile flowId child stage =>
    cases stage with
    | getChild =>
      simp only [Fleet.call, reconcileCall] at h
      split at h
      · cases h
      · split at h
        · cases h
        · split at h <;> cases h
    | before | after =>
      simp only [Fleet.call, reconcileCall] at h
      split at h <;> cases h
    | enqueue | cancel | report => cases h
  | cascade flowId children' done =>
    cases children' with
    | nil => cases h
    | cons child rest =>
      cases known <;>
      · simp only [Fleet.call, cascadeCall, cascadeRest, Bool.false_eq_true, if_true, if_false] at h
        split at h <;> cases h

/-- What a procedure goes on with is of the landing its next tag says. -/
theorem DeployOk.carries_nextTag (h : DeployOk parentKey home s) {p : ℕ} {flowId : JobId}
    {spec : FlowChildSpec V} (hspec : (flowId, spec) ∈ (s.procs p).specs) :
    Carries parentKey home s flowId spec.childKey (s.nextTag p (s.procs p)) := by
  have hkeep : Carries parentKey home s flowId spec.childKey (s.tags p) := .proc p spec hspec rfl
  have hspecced := (h.procs p).specs flowId spec hspec
  cases hproc : s.procs p with
  | idle | cascade => exact hkeep
  | fanOut id token failFast children stage =>
    rw [hproc] at hspec
    cases stage with
    | ack => cases hspec
    | check | enqueue => exact hkeep
  | reconcile flowId' child stage =>
    rw [hproc] at hspec
    cases List.mem_singleton.mp hspec
    cases stage with
    | getChild =>
      simp only [Deployment.nextTag, hspecced.1]
      split
      · rename_i hhas
        exact .job spec.storeKey hhas
      · exact hkeep
    | _ => exact hkeep

theorem Tidy.call (h : Tidy parentKey home s) {p : ℕ} {now : Millis} {known answered : Bool}
    (hclean : Clean parentKey home s (.call p now known answered)) :
    Tidy parentKey home (s.call parentKey p now known answered) := by
  have ht := h.exchange hclean
  unfold Deployment.call
  cases answered with
  | false => exact ht
  | true =>
    simp only [if_true]
    have hwork := h.ok.procs p
    refine ht.setProc p ⟨fun id token failFast children heq => ?_, fun flowId spec hmem => ?_⟩
      fun flowId spec hmem => ?_
    · exact hwork.ack id token failFast children (call_ack heq)
    · rcases call_specs hmem with hspec | ⟨id, token, failFast, children, heq, hspec⟩
      · exact hwork.specs flowId spec hspec
      · obtain ⟨spec', hs, heq'⟩ := List.mem_map.mp hspec
        cases heq'
        exact built_specced (hwork.ack _ _ _ _ heq) hs
    · rcases call_specs hmem with hspec | ⟨id, token, failFast, children, heq, hspec⟩
      · have hproc : (s.exchange parentKey p now known).procs p = s.procs p :=
          exchange_procs p p now known
        rw [← hproc] at hspec ⊢
        exact .inl (ht.ok.carries_nextTag hspec)
      · obtain ⟨spec', _, heq'⟩ := List.mem_map.mp hspec
        cases heq'
        rw [heq]
        exact .inr rfl

/-- An operation of a client of the parent store lands no fan-out. -/
theorem Tidy.parentClient (h : Tidy parentKey home s) {now : Millis} {op : Op V}
    (hlegal : (DeployEvent.parent now op).Legal parentKey s) :
    Tidy parentKey home (s.parentExec now op) := by
  have hfans : op.FansOut (Built parentKey) := by
    cases op with
    | ack id token outcome =>
      cases outcome with
      | fanOut failFast children => exact absurd rfl (hlegal.2 id token failFast children)
      | _ => trivial
    | _ => trivial
  refine h.parentExec hfans fun id children hl => ?_
  obtain ⟨token, failFast, _, hop, _⟩ := landing_ack h.ok.parent.flow hl
  exact absurd hop (hlegal.2 id token failFast children)

/-- A client of a child store makes no job under the id of a child that is waited for. -/
theorem Tidy.childClient (h : Tidy parentKey home s) {key : String} {now : Millis} {op : Op V}
    (hlegal : (DeployEvent.child key now op).Legal parentKey s)
    (hclean : Clean parentKey home s (.child key now op)) :
    Tidy parentKey home (s.childExec parentKey key now op 0) := by
  refine h.childExec (fun id request t seq envelope hl hp hkey => ?_)
    fun flowId childKey hw hbefore hafter => ?_
  · have hrequest : requestOf op = some request := by cases hl <;> rfl
    exact absurd hkey (hlegal request envelope hrequest hp)
  · have habsent := JsMap.has_eq_false.mp hbefore
    have hstill := exec_undrawn (h.ok.child key).flow.keyed habsent (hclean flowId childKey hw habsent)
    rw [JsMap.has_eq_false.mpr hstill] at hafter
    cases hafter

/-- The rows a sweep hands out have the specs of their manifest. -/
theorem sweepWork_specced (h : ParentOk parentKey s.parent.store) {now : Millis}
    {options : FlowSweepOptions} {item : JobId × FlowChildSpec V}
    (hmem : item ∈ ungroup (flowSweepWork s.parent.store now options).1.reconcile) :
    Specced parentKey item.1 item.2 := by
  rw [flowSweepWork_reconcile] at hmem
  obtain ⟨e, he, rfl⟩ := List.mem_map.mp hmem
  have hrow := ((mem_selectRows h.rows).mp (List.mem_of_mem_take he)).1
  exact h.specced hrow

theorem Tidy.sweep (h : Tidy parentKey home s) (now : Millis) (options : FlowSweepOptions) :
    Tidy parentKey home
      { s.parentExec now (.flowSweepWork options) with
        handed := s.handed ++ (ungroup (flowSweepWork s.parent.store now options).1.reconcile).map
          fun item => (s.landings item.1, item) } := by
  have hswept : Tidy parentKey home (s.parentExec now (.flowSweepWork options)) :=
    h.parentExec trivial fun _ _ hl => by cases hl
  refine hswept.setHanded fun n flowId spec hmem => ?_
  rcases List.mem_append.mp hmem with hold | hnew
  · exact .inl hold
  · obtain ⟨item, hitem, heq⟩ := List.mem_map.mp hnew
    cases heq
    exact .inr ⟨rfl, sweepWork_specced h.ok.parent hitem⟩

/-- A procedure takes up handed work with its landing. -/
theorem Tidy.take (h : Tidy parentKey home s) (p : ℕ) {i n : ℕ} {flowId : JobId}
    {spec : FlowChildSpec V} (hitem : s.handed[i]? = some (n, flowId, spec)) :
    Tidy parentKey home
      { s with
        handed := s.handed.eraseIdx i
        procs := Function.update s.procs p (.reconcile flowId spec .getChild)
        tags := Function.update s.tags p n } := by
  have hmem : (n, flowId, spec) ∈ s.handed := List.mem_of_getElem? hitem
  have hok : WorkOk parentKey (.reconcile flowId spec .getChild : Proc V) := by
    refine ⟨fun _ _ _ _ heq => (by cases heq), fun f spec' hspec => ?_⟩
    cases List.mem_singleton.mp hspec
    exact h.ok.handed n flowId spec hmem
  have hset := h.setProc (t := n) p hok fun f spec' hspec => by
    cases List.mem_singleton.mp hspec
    exact .inl (.handed n spec hmem rfl)
  exact hset.setHanded fun _ _ _ hmem => .inl (List.mem_of_mem_eraseIdx hmem)

theorem Tidy.start (h : Tidy parentKey home s) {p : ℕ} {proc : Proc V}
    (hlegal : (DeployEvent.start p proc).Legal parentKey s) :
    Tidy parentKey home { s with procs := Function.update s.procs p proc } := by
  have hproc := hlegal.2
  have hspecs : proc.specs = [] := by
    cases proc with
    | idle => rfl
    | fanOut _ _ _ _ stage =>
      cases stage with
      | ack => rfl
      | _ => exact hproc.elim
    | reconcile => exact hproc.elim
    | cascade => rfl
  refine h.setProc_keep p ⟨fun id token failFast children heq => ?_, fun flowId spec hspec => ?_⟩
    fun item hitem => ?_
  · subst heq
    exact hproc
  · rw [hspecs] at hspec
    cases hspec
  · rw [hspecs] at hitem
    cases hitem

theorem Tidy.step {e : DeployEvent V} {t : Deployment V} (h : Tidy parentKey home s)
    (hs : CleanStep parentKey home s e t) : Tidy parentKey home t := by
  obtain ⟨⟨hlegal, hact⟩, hclean⟩ := hs
  cases e with
  | parent now op =>
    cases hact
    exact h.parentClient hlegal
  | child key now op =>
    cases hact
    exact h.childClient hlegal hclean
  | sweep now options =>
    cases hact
    exact h.sweep now options
  | relay event => exact h.relayStep hact
  | start p proc =>
    cases hact
    exact h.start hlegal
  | take p i =>
    obtain ⟨item, hitem, rfl⟩ := Option.map_eq_some_iff.mp hact
    exact h.take p hitem
  | forget i =>
    cases hact
    exact h.setHanded fun _ _ _ hmem => .inl (List.mem_of_mem_eraseIdx hmem)
  | call p now known answered =>
    cases hact
    exact h.call hclean
  | stop p =>
    cases hact
    exact h.setProc_keep p ⟨fun _ _ _ _ heq => (by cases heq), fun _ _ hspec => (by cases hspec)⟩
      fun _ hitem => (by cases hitem)

/-! ## Results of the own incarnation -/

/-- A delivered report was on its way. -/
theorem DeployOk.carries_delivery (h : DeployOk parentKey home s) {e : DeployEvent V} {now : Millis}
    {batch : List (FlowChildReport V × ℕ)} {report : FlowChildReport V} {n : ℕ}
    (hd : s.delivery parentKey home e = some (now, batch)) (hmem : (report, n) ∈ batch) :
    Carries parentKey home s report.flowId report.childKey n := by
  unfold Deployment.delivery at hd
  split at hd
  · rename_i relay _ _
    split at hd
    · rename_i group groups lastPage hphase
      split at hd
      · rename_i hkey
        cases hd
        obtain ⟨entry, hentry, heq⟩ := List.mem_map.mp hmem
        cases heq
        have hgroup : group ∈ (s.relays relay).phase.groups := by
          rw [hphase]
          exact List.mem_cons_self
        have hparent := (h.held relay group hgroup entry hentry).1
        exact .held relay group entry hgroup hentry ⟨hparent.trans hkey, rfl, rfl⟩
      · cases hd
    · cases hd
  · rename_i p _ _ _
    split at hd
    · rename_i flowId child outcome exit failedReason hproc
      cases hd
      cases List.mem_singleton.mp hmem
      refine .proc p child ?_ rfl
      rw [hproc]
      exact List.mem_singleton_self _
    · cases hd
  · cases hd

theorem Tidy.ownResults (h : Tidy parentKey home s) (e : DeployEvent V) :
    OwnResults parentKey home s e := by
  intro now batch i report n hd hi happ
  obtain ⟨report', hr, hwaits, _⟩ := recordChildResults_applied h.ok.parent.flow.keyed happ
  have hsame : report = report' := by
    rw [List.getElem?_map, hi] at hr
    exact Option.some.inj hr
  rw [hsame] at hi ⊢
  exact h.current _ _ n hwaits (h.ok.carries_delivery hd (List.mem_of_getElem? hi))

theorem storesDelivery (e : DeployEvent V) : StoresDelivery parentKey home s e := by
  intro t now batch hact hd
  unfold Deployment.delivery at hd
  split at hd
  · rename_i relay _ answered
    split at hd
    · rename_i group groups lastPage hphase
      split at hd
      · rename_i hkey
        cases hd
        obtain ⟨two, htwo, rfl⟩ := Option.map_eq_some_iff.mp hact
        simp only [relayAct, hphase, deliverGroup, if_pos hkey] at htwo
        cases answered <;> cases htwo <;> simp [Ledger.exec, Memory.exec, TwoStores.setRelay, Function.comp_def]
      · cases hd
    · cases hd
  · rename_i p _ known answered
    split at hd
    · rename_i flowId child outcome exit failedReason hproc
      cases hd
      cases hact
      unfold Deployment.call Deployment.exchange
      simp only [hproc, Proc.parentOp, Proc.childOp]
      cases answered <;> rfl
    · cases hd
  · cases hd

theorem tidy_empty : Tidy parentKey home (Deployment.empty : Deployment V) where
  ok := ⟨parentOk_empty, fun _ => childOk_empty, fun _ _ hg => (by cases hg),
    fun _ => ⟨fun _ _ _ _ heq => (by cases heq), fun _ _ hspec => (by cases hspec)⟩,
    fun _ _ _ hmem => (by cases hmem)⟩
  current := fun _ _ _ hw => by
    obtain ⟨_, hrow, _⟩ := waits_iff.mp hw
    cases hrow

/-- Flow incarnations do not mix. Where fan-outs land when nothing of their children is left from
before, every report that is applied is of a child enqueued for the newest fan-out of its flow. -/
theorem incarnations_apart
    (h : Reachable (· = Deployment.empty) (CleanStep parentKey home) s) (e : DeployEvent V) :
    OwnResults parentKey home s e ∧ StoresDelivery parentKey home s e := by
  have htidy : Tidy parentKey home s := by
    refine h.induct (I := Tidy parentKey home) ?_ fun _ _ _ hs ht => ht.step hs
    rintro s rfl
    exact tidy_empty
  exact ⟨htidy.ownResults e, storesDelivery e⟩

end

/-! ## A parent that is enqueued again -/

def onKids : ℕ → String := fun _ => "kids"

def deployStep (s : Deployment Unit) (e : DeployEvent Unit) : Deployment Unit :=
  (deployAct "main" onKids s e).getD s

def deployRun (events : List (DeployEvent Unit)) : Deployment Unit :=
  events.foldl deployStep Deployment.empty

/-- The parent is enqueued and claimed, and its fan-out lands. -/
def fanOutLands (now : Millis) : List (DeployEvent Unit) :=
  [.parent now (.enqueue (.plain "p" "flow" "q" ()) .counter),
    .parent now (.claim ⟨"q", ["flow"], "t", 30⟩),
    .start 0 (.fanOut "p" "t" false [soloSpec] .ack),
    .call 0 now true true]

/-- The fan-out enqueues its child, and a worker claims it. -/
def childStarts (now : Millis) : List (DeployEvent Unit) :=
  [.call 0 now true true,
    .call 0 now true true,
    .child "kids" now (.claim ⟨"q", ["child"], "u", 30⟩)]

def childEnds (now : Millis) : DeployEvent Unit :=
  .child "kids" now (.ack (childJobId "main" "p" "a") "u" (.complete (some ())))

theorem parent_deployLegal {s : Deployment Unit} {now : Millis} {op : Op Unit}
    (hreports : op.reports = [])
    (hfan : ∀ id token failFast children, op ≠ .ack id token (.fanOut failFast children)) :
    (DeployEvent.parent now op).Legal "main" s := ⟨hreports, hfan⟩

theorem child_deployLegal {s : Deployment Unit} {key : String} {now : Millis} {op : Op Unit}
    (hrequest : requestOf op = none) : (DeployEvent.child key now op).Legal "main" s := by
  intro request _ hr
  rw [hrequest] at hr
  cases hr

/-- Nothing is on its way while all child stores are as at the start. -/
theorem not_carries {s : Deployment Unit} (hchildren : s.children = fun _ => Store.empty)
    (hrelays : s.relays = fun _ => .start) (hspecs : ∀ p, (s.procs p).specs = [])
    (hhanded : s.handed = []) (flowId : JobId) (key : String) (n : ℕ) :
    ¬ Carries "main" onKids s flowId key n := by
  intro hc
  cases hc with
  | job store hhas =>
    rw [hchildren] at hhas
    cases hhas
  | entry store entry hmem =>
    rw [hchildren] at hmem
    cases hmem
  | held relay group entry hg =>
    rw [hrelays] at hg
    cases hg
  | proc p spec hspec =>
    rw [hspecs] at hspec
    cases hspec
  | handed n spec hmem =>
    rw [hhanded] at hmem
    cases hmem

theorem fanOut_clean {s : Deployment Unit} (p : ℕ) (now : Millis) (known answered : Bool)
    (hchildren : s.children = fun _ => Store.empty) (hrelays : s.relays = fun _ => .start)
    (hspecs : ∀ p, (s.procs p).specs = []) (hhanded : s.handed = []) :
    Clean "main" onKids s (.call p now known answered) :=
  fun _ id _ _ _ spec _ n => not_carries hchildren hrelays hspecs hhanded id spec.childKey n

theorem fanOutLands_run : Run (CleanStep "main" onKids) Deployment.empty (fanOutLands 0)
    (deployRun (fanOutLands 0)) := by
  have hclean : Clean "main" onKids (deployRun ((fanOutLands 0).take 3)) (.call 0 0 true true) :=
    fanOut_clean 0 0 true true rfl rfl (fun p => by cases p <;> rfl) rfl
  exact .cons ⟨⟨parent_deployLegal rfl (fun _ _ _ _ h => (by cases h)), rfl⟩, trivial⟩ <|
    .cons ⟨⟨parent_deployLegal rfl (fun _ _ _ _ h => (by cases h)), rfl⟩, trivial⟩ <|
    .cons ⟨⟨⟨rfl, soloSpec_built⟩, rfl⟩, trivial⟩ <|
    .cons ⟨⟨trivial, rfl⟩, hclean⟩ <| .refl _

/-- The first fan-out is abandoned before its child is enqueued, and the parent cancelled and
removed. -/
def renewed : List (DeployEvent Unit) :=
  fanOutLands 0 ++ [.stop 0, .parent 1 (.cancel "p"), .parent 2 (.remove "p")] ++ fanOutLands 3 ++
    childStarts 4 ++ [childEnds 5, .relay (.peek 0 ["main"])]

theorem renewed_run : Run (CleanStep "main" onKids) (deployRun (fanOutLands 0)) (renewed.drop 4)
    (deployRun renewed) := by
  have hclean : Clean "main" onKids (deployRun (renewed.take 10)) (.call 0 3 true true) :=
    fanOut_clean 0 3 true true rfl rfl (fun p => by cases p <;> rfl) rfl
  exact .cons ⟨⟨trivial, rfl⟩, trivial⟩ <|
    .cons ⟨⟨parent_deployLegal rfl (fun _ _ _ _ h => (by cases h)), rfl⟩, trivial⟩ <|
    .cons ⟨⟨parent_deployLegal rfl (fun _ _ _ _ h => (by cases h)), rfl⟩, trivial⟩ <|
    .cons ⟨⟨parent_deployLegal rfl (fun _ _ _ _ h => (by cases h)), rfl⟩, trivial⟩ <|
    .cons ⟨⟨parent_deployLegal rfl (fun _ _ _ _ h => (by cases h)), rfl⟩, trivial⟩ <|
    .cons ⟨⟨⟨rfl, soloSpec_built⟩, rfl⟩, trivial⟩ <|
    .cons ⟨⟨trivial, rfl⟩, hclean⟩ <|
    .cons ⟨⟨trivial, rfl⟩, fun _ _ _ hop => by cases hop⟩ <|
    .cons ⟨⟨trivial, rfl⟩, fun _ _ _ hop => by cases hop⟩ <|
    .cons ⟨⟨child_deployLegal rfl, rfl⟩, fun _ _ _ _ h => h⟩ <|
    .cons ⟨⟨child_deployLegal rfl, rfl⟩, fun _ _ _ _ h => h⟩ <|
    .cons ⟨⟨trivial, rfl⟩, trivial⟩ <| .refl _

theorem incarnations_apart_renewed :
    (deployRun renewed).delivery "main" onKids (.relay (.deliver 0 6 true)) =
        some (6, [(⟨"p", "a", .completed, some (), none⟩, 2)]) ∧
      OwnResults "main" onKids (deployRun renewed) (.relay (.deliver 0 6 true)) ∧
      StoresDelivery "main" onKids (deployRun renewed) (.relay (.deliver 0 6 true)) :=
  ⟨rfl, incarnations_apart ⟨_, _, rfl, fanOutLands_run.trans renewed_run⟩ _⟩

/-- The first child ends after its parent is cancelled, and its report is still in the outbox when the
parent's second fan-out lands. -/
def overtaken : List (DeployEvent Unit) :=
  fanOutLands 0 ++ childStarts 1 ++ [.parent 2 (.cancel "p"), childEnds 3, .parent 4 (.remove "p")] ++
    fanOutLands 5 ++ [.relay (.peek 0 ["main"])]

theorem overtaken_run : Run (DeployStep "main" onKids) (deployRun (fanOutLands 0)) (overtaken.drop 4)
    (deployRun overtaken) :=
  .cons ⟨trivial, rfl⟩ <|
  .cons ⟨trivial, rfl⟩ <|
  .cons ⟨child_deployLegal rfl, rfl⟩ <|
  .cons ⟨parent_deployLegal rfl (fun _ _ _ _ h => (by cases h)), rfl⟩ <|
  .cons ⟨child_deployLegal rfl, rfl⟩ <|
  .cons ⟨parent_deployLegal rfl (fun _ _ _ _ h => (by cases h)), rfl⟩ <|
  .cons ⟨parent_deployLegal rfl (fun _ _ _ _ h => (by cases h)), rfl⟩ <|
  .cons ⟨parent_deployLegal rfl (fun _ _ _ _ h => (by cases h)), rfl⟩ <|
  .cons ⟨⟨rfl, soloSpec_built⟩, rfl⟩ <|
  .cons ⟨trivial, rfl⟩ <|
  .cons ⟨trivial, rfl⟩ <| .refl _

/-- The report of the first child settles the second fan-out. -/
theorem late_report_applied : ¬ ∀ (s : Deployment Unit) (e : DeployEvent Unit) (t : Deployment Unit),
    Reachable (· = Deployment.empty) (DeployStep "main" onKids) s → DeployStep "main" onKids s e t →
    OwnResults "main" onKids s e := by
  intro h
  have hrun : Run (DeployStep "main" onKids) Deployment.empty overtaken (deployRun overtaken) :=
    (fanOutLands_run.mono fun _ _ _ hs => hs.1).trans overtaken_run
  have hlast : DeployStep "main" onKids (deployRun overtaken) (.relay (.deliver 0 6 true))
      (deployStep (deployRun overtaken) (.relay (.deliver 0 6 true))) := ⟨trivial, rfl⟩
  have hbatch : (deployRun overtaken).delivery "main" onKids (.relay (.deliver 0 6 true)) =
      some (6, [(⟨"p", "a", .completed, some (), none⟩, 1)]) := rfl
  have hlanded : (deployRun overtaken).landings "p" = 2 := rfl
  have hown := h _ _ _ ⟨_, _, rfl, hrun⟩ hlast 6 _ 0 _ _ hbatch rfl ⟨_, rfl, rfl⟩
  rw [hlanded] at hown
  cases hown

end EffectMq.Worker
