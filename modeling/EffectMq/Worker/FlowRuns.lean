import EffectMq.MemoryJobStore.Settle

/-! # Flow parents and the workers that run them

Any number of workers over one store, each job run keyed by its claim token. A run of a record
without flow bookkeeping may fan out, as `processJob` decides from `record.flow`: it acks `FanOut`,
looks whether the parent is parked, and then enqueues the children it has built. Everything else
reaches the store as a `call`.

The store comes with its `Ledger`, the manifest that landed under each parent id. `FlowSystemInv` says
that a lock belongs to a run dispatched by the phase the job still has, so no second manifest lands,
and that a run enqueues only what has landed.
-/

namespace EffectMq.Worker
set_option autoImplicit false
set_option maxHeartbeats 250000

open Transition Memory

variable {V : Type}

/-! ## State -/

/-- Where a run of a flow parent stands in `processJob`. -/
inductive Phase (V : Type)
  | running
  | acking (children : List (FlowChildSpec V))
  | acked (children : List (FlowChildSpec V))
  | enqueuing (children : List (FlowChildSpec V))
  | over
  deriving DecidableEq

structure FlowRun (V : Type) where
  id : JobId
  isFanOut : Bool
  phase : Phase V
  deriving DecidableEq

structure FlowSystem (V : Type) extends Ledger V where
  runs : JsMap String (FlowRun V)
  deriving DecidableEq

/-! ## Events -/

inductive FlowEvent (V : Type)
  | claim (now : Millis) (options : ClaimOptions)
  | ackFanOut (now : Millis) (token : String) (failFast : Bool) (children : List (FlowChildSpec V))
      (answered : Bool)
  | check (token : String)
  | enqueueChildren (token : String) (children : List (FlowChildSpec V))
  | call (now : Millis) (op : Op V)

def FlowSystem.exec (s : FlowSystem V) (now : Millis) (op : Op V) : FlowSystem V :=
  { s with toLedger := s.toLedger.exec now op }

/-- A claimed record without flow bookkeeping is dispatched to `fanOut`. -/
def claimRun (s : FlowSystem V) (now : Millis) (options : ClaimOptions) : FlowSystem V :=
  let t := s.exec now (.claim options)
  match (claim s.store now options).1 with
  | .claimed record =>
    { t with runs := s.runs.set options.token ⟨record.id, record.flow.isNone, .running⟩ }
  | .empty _ _ => t

/-- The runner has returned its specs, or an earlier ack of the same specs got no answer. -/
def FlowRun.mayAck [DecidableEq V] (run : FlowRun V) (children : List (FlowChildSpec V)) : Bool :=
  run.isFanOut && (decide (run.phase = .running) || decide (run.phase = .acking children))

/-- What the run does next; an ack that failed in the store or got no answer is retried. -/
def phaseAfter (children : List (FlowChildSpec V)) (answered : Bool)
    (result : Except StoreError Unit) : Phase V :=
  match answered, result with
  | false, _ | true, .error (.jobStoreError _) => .acking children
  | true, .ok _ => .acked children
  | true, .error _ => .over

/-- The children of a parent that is no longer parked are not enqueued. -/
def phaseChecked (store : Store V) (id : JobId) (children : List (FlowChildSpec V)) : Phase V :=
  let parked := if children = [] then none else getJob store id
  if parked.any fun job => decide (job.state = .waitingChildren) then .enqueuing children else .over

def setPhase (s : FlowSystem V) (token : String) (phase : Phase V) : FlowSystem V :=
  { s with runs := s.runs.modify token fun run => { run with phase } }

def ackRun (s : FlowSystem V) (now : Millis) (token : String) (run : FlowRun V) (failFast : Bool)
    (children : List (FlowChildSpec V)) (answered : Bool) : FlowSystem V :=
  let result := (ack s.store now run.id token (.fanOut failFast children)).1
  setPhase (s.exec now (.ack run.id token (.fanOut failFast children))) token
    (phaseAfter children answered result)

def flowAct [DecidableEq V] (s : FlowSystem V) : FlowEvent V → Option (FlowSystem V)
  | .claim now options => some (claimRun s now options)
  | .ackFanOut now token failFast children answered =>
    (s.runs.get? token).bind fun run =>
      if run.mayAck children then some (ackRun s now token run failFast children answered) else none
  | .check token =>
    (s.runs.get? token).bind fun run =>
      match run.phase with
      | .acked children => some (setPhase s token (phaseChecked s.store run.id children))
      | _ => none
  | .enqueueChildren token children =>
    (s.runs.get? token).bind fun run =>
      if run.phase = .enqueuing children then some (setPhase s token .over) else none
  | .call now op => some (s.exec now op)

/-- Claims use fresh tokens, specs are built with distinct keys, and every claim and every `FanOut`
ack is a worker's. -/
def FlowEvent.Legal (s : FlowSystem V) : FlowEvent V → Prop
  | .claim _ options => s.runs.get? options.token = none
  | .ackFanOut _ _ _ children _ => DistinctKeys children
  | .call _ (.claim _) | .call _ (.ack _ _ (.fanOut _ _)) => False
  | _ => True

/-- No id of a deleted flow parent is reused. -/
def FlowStep [DecidableEq V] (s : FlowSystem V) (e : FlowEvent V) (t : FlowSystem V) : Prop :=
  e.Legal s ∧ flowAct s e = some t ∧ ¬ s.toLedger.Reuses t.toLedger

def FlowStart (s : FlowSystem V) : Prop := s = ⟨⟨Store.empty, ∅⟩, ∅⟩

/-! ## The invariant -/

def Phase.landed? : Phase V → Option (List (FlowChildSpec V))
  | .acked children | .enqueuing children => some children
  | _ => none

structure FlowSystemInv (s : FlowSystem V) : Prop where
  ledger : LedgerInv (fun _ => DistinctKeys) s.toLedger
  locks : ∀ id job token, s.store.jobs.get? id = some job → job.lockToken = some token →
    ∃ run, s.runs.get? token = some run ∧ run.id = id ∧ run.isFanOut = job.flow.isNone
  landed : ∀ token run children, s.runs.get? token = some run →
    run.phase.landed? = some children → s.manifests.get? run.id = some children

/-- The stored locks after an operation other than a claim. -/
theorem FlowSystemInv.locks_exec {s : FlowSystem V} (h : FlowSystemInv s) (now : Millis) {op : Op V}
    (hop : ∀ options, op ≠ .claim options) {id : JobId} {job : MemJob V} {token : String}
    (hj : (exec s.store now op).jobs.get? id = some job) (ht : job.lockToken = some token) :
    ∃ run, s.runs.get? token = some run ∧ run.id = id ∧ run.isFanOut = job.flow.isNone := by
  rcases exec_lockToken h.ledger.flow.keyed now op hj ht with ⟨job₀, hj₀, ht₀, hflow⟩ | ⟨_, rfl, _⟩
  · obtain ⟨run, hr, hid, hphase⟩ := h.locks id job₀ token hj₀ ht₀
    refine ⟨run, hr, hid, ?_⟩
    rw [hphase, ← Option.not_isSome, ← Option.not_isSome, hflow]
  · exact absurd rfl (hop _)

theorem FlowSystemInv.call {s : FlowSystem V} (h : FlowSystemInv s) (now : Millis) (op : Op V)
    (hclaim : ∀ options, op ≠ .claim options) (hfans : op.FansOut fun _ => DistinctKeys)
    (hreuse : ¬ s.toLedger.Reuses (s.toLedger.exec now op)) : FlowSystemInv (s.exec now op) where
  ledger := h.ledger.exec (fun _ _ h => h) now op hfans hreuse
  locks := fun _ _ _ hj ht => h.locks_exec now hclaim hj ht
  landed := fun token run children hr hl =>
    h.ledger.manifests_exec now op (h.landed token run children hr hl)

theorem FlowSystemInv.setPhase {s : FlowSystem V} (h : FlowSystemInv s) {token : String} {run : FlowRun V}
    (hr : s.runs.get? token = some run) {phase : Phase V}
    (hp : ∀ children, phase.landed? = some children → s.manifests.get? run.id = some children) :
    FlowSystemInv (setPhase s token phase) where
  ledger := h.ledger
  locks := by
    intro id job token' hj ht
    obtain ⟨run', hr', hid, hphase⟩ := h.locks id job token' hj ht
    simp only [Worker.setPhase, JsMap.get?_modify]
    split
    · rename_i htok
      rw [← htok, hr', Option.map_some]
      exact ⟨_, rfl, hid, hphase⟩
    · exact ⟨run', hr', hid, hphase⟩
  landed := by
    intro token' run' children hr' hl
    simp only [Worker.setPhase, JsMap.get?_modify] at hr'
    split at hr'
    · obtain ⟨run₀, hr₀, rfl⟩ := Option.map_eq_some_iff.mp hr'
      cases hr.symm.trans hr₀
      exact hp children hl
    · exact h.landed token' run' children hr' hl

/-! ## Claims -/

theorem claimRun_toLedger (s : FlowSystem V) (now : Millis) (options : ClaimOptions) :
    (claimRun s now options).toLedger = s.toLedger.exec now (.claim options) := by
  unfold claimRun
  simp only
  split <;> rfl

theorem claimRun_get? (s : FlowSystem V) (now : Millis) (options : ClaimOptions) {token : String}
    {run : FlowRun V} (hr : (claimRun s now options).runs.get? token = some run) :
    s.runs.get? token = some run ∨ run.phase.landed? = none := by
  unfold claimRun at hr
  simp only at hr
  split at hr
  · rw [JsMap.get?_set] at hr
    split at hr
    · cases hr
      exact .inr rfl
    · exact .inl hr
  · exact .inl hr

theorem claimRun_old {s : FlowSystem V} (now : Millis) {options : ClaimOptions} {token : String}
    {run : FlowRun V} (hfresh : s.runs.get? options.token = none)
    (hr : s.runs.get? token = some run) :
    (claimRun s now options).runs.get? token = some run := by
  have hne : token ≠ options.token := by
    rintro rfl
    cases hr.symm.trans hfresh
  unfold claimRun
  simp only
  split
  · rwa [JsMap.get?_set, if_neg hne]
  · exact hr

theorem claimRun_new (s : FlowSystem V) (now : Millis) (options : ClaimOptions)
    {record : JobRecord V} (h : (claim s.store now options).1 = .claimed record) :
    (claimRun s now options).runs.get? options.token =
      some ⟨record.id, record.flow.isNone, .running⟩ := by
  unfold claimRun
  simp only [h]
  rw [JsMap.get?_set, if_pos rfl]

theorem FlowSystemInv.claim {s : FlowSystem V} (h : FlowSystemInv s) (now : Millis) {options : ClaimOptions}
    (hfresh : s.runs.get? options.token = none)
    (hreuse : ¬ s.toLedger.Reuses (claimRun s now options).toLedger) :
    FlowSystemInv (claimRun s now options) where
  ledger := by
    rw [claimRun_toLedger] at hreuse ⊢
    exact h.ledger.exec (fun _ _ h => h) now _ trivial hreuse
  locks := by
    intro id job token hj ht
    rw [claimRun_toLedger] at hj
    rcases exec_lockToken h.ledger.flow.keyed now _ hj ht with
      ⟨job₀, hj₀, ht₀, hflow⟩ | ⟨_, hop, rfl⟩
    · obtain ⟨run, hr, hid, hf⟩ := h.locks id job₀ token hj₀ ht₀
      refine ⟨run, claimRun_old now hfresh hr, hid, ?_⟩
      rw [hf, ← Option.not_isSome, ← Option.not_isSome, hflow]
    · cases hop
      rcases claim_lockToken now options hj ht with ⟨job₀, hj₀, ht₀⟩ | ⟨hclaimed, hid⟩
      · obtain ⟨run, hr, _⟩ := h.locks id job₀ _ hj₀ ht₀
        cases hr.symm.trans hfresh
      · exact ⟨_, claimRun_new s now options hclaimed, hid, rfl⟩
  landed := by
    intro token run children hr hl
    rw [claimRun_toLedger]
    rcases claimRun_get? s now options hr with hr | hnone
    · exact h.ledger.manifests_exec now _ (h.landed token run children hr hl)
    · cases hnone.symm.trans hl

/-! ## Fan-out acks -/

/-- An ack of a fan-out run is refused, or its job has no manifest yet and gets this one. -/
theorem FlowSystemInv.ack_cases {s : FlowSystem V} (h : FlowSystemInv s) (now : Millis) {token : String}
    {run : FlowRun V} (failFast : Bool) (children : List (FlowChildSpec V))
    (hr : s.runs.get? token = some run) (hf : run.isFanOut = true) :
    (∃ e, (ack s.store now run.id token (.fanOut failFast children)).1 = .error e ∧
      exec s.store now (.ack run.id token (.fanOut failFast children)) = s.store) ∨
    s.manifests.get? run.id = none ∧
      (s.toLedger.exec now (.ack run.id token (.fanOut failFast children))).manifests =
        s.manifests.set run.id children := by
  cases hres : (ack s.store now run.id token (.fanOut failFast children)).1 with
  | error e => exact .inl ⟨e, rfl, ack_error hres⟩
  | ok u =>
    obtain ⟨job, hj, ha, ht, heq⟩ := ack_ok hres
    obtain ⟨run', hr', _, hphase⟩ := h.locks run.id job token hj ht
    cases hr.symm.trans hr'
    have hflow : job.flow.isSome = false := by
      rw [hf, ← Option.not_isSome] at hphase
      simpa using hphase.symm
    have hm : (manifest? s.store run.id).isSome = false := by
      rw [← hflow]
      exact (h.ledger.flow.booked run.id).manifest?_isSome hj
    have hlanded : ¬ Landed s.toLedger run.id := by
      rw [h.ledger.landed_iff hj, hflow]
      decide
    refine .inr ⟨Option.not_isSome_iff_eq_none.mp hlanded, ?_⟩
    simp only [Ledger.exec, landing, hres, hm, Bool.false_eq_true, if_false]

theorem phaseAfter_landed {children children' : List (FlowChildSpec V)} {answered : Bool}
    {result : Except StoreError Unit}
    (h : (phaseAfter children answered result).landed? = some children') :
    result = .ok () ∧ children' = children := by
  unfold phaseAfter at h
  split at h
  · cases h
  · cases h
  · exact ⟨rfl, (Option.some.inj h).symm⟩
  · cases h

theorem FlowSystemInv.ackFanOut {s : FlowSystem V} (h : FlowSystemInv s) (now : Millis) {token : String}
    {run : FlowRun V} (failFast : Bool) {children : List (FlowChildSpec V)} (answered : Bool)
    (hr : s.runs.get? token = some run) (hf : run.isFanOut = true) (hd : DistinctKeys children)
    (hreuse : ¬ s.toLedger.Reuses (ackRun s now token run failFast children answered).toLedger) :
    FlowSystemInv (ackRun s now token run failFast children answered) := by
  have hcall := h.call now (.ack run.id token (.fanOut failFast children))
    (fun _ hop => by cases hop) hd hreuse
  refine hcall.setPhase hr fun children' hl => ?_
  obtain ⟨hres, rfl⟩ := phaseAfter_landed hl
  rcases h.ack_cases now failFast children' hr hf with ⟨e, herr, _⟩ | ⟨_, hman⟩
  · cases hres.symm.trans herr
  · exact hman ▸ (JsMap.get?_set ..).trans (if_pos rfl)

/-! ## Steps -/

theorem phaseChecked_landed {store : Store V} {id : JobId} {children children' : List (FlowChildSpec V)}
    (h : (phaseChecked store id children).landed? = some children') : children' = children := by
  by_cases hp : (if children = [] then none else getJob store id).any
      fun job => decide (job.state = .waitingChildren)
  · rw [phaseChecked, if_pos hp] at h
    exact (Option.some.inj h).symm
  · rw [phaseChecked, if_neg hp] at h
    cases h

/-- An event leaves the ledger alone, or is one operation on it; a fan-out is a fan-out run's. -/
theorem FlowStep.cases [DecidableEq V] {s t : FlowSystem V} {e : FlowEvent V}
    (hs : FlowStep s e t) : t.toLedger = s.toLedger ∨
      ∃ now op, t.toLedger = s.toLedger.exec now op ∧
        ((∀ id token failFast children, op ≠ .ack id token (.fanOut failFast children)) ∨
          ∃ token failFast children run, op = .ack run.id token (.fanOut failFast children) ∧
            s.runs.get? token = some run ∧ run.isFanOut = true) := by
  obtain ⟨hlegal, hact, _⟩ := hs
  cases e with
  | claim now options =>
    cases hact
    exact .inr ⟨now, .claim options, claimRun_toLedger .., .inl fun _ _ _ _ h => by cases h⟩
  | ackFanOut now token failFast children answered =>
    obtain ⟨run, hr, hact⟩ := Option.bind_eq_some_iff.mp hact
    split at hact
    · rename_i hmay
      cases hact
      exact .inr ⟨now, _, rfl, .inr ⟨token, failFast, children, run, rfl, hr,
        (Bool.and_eq_true_iff.mp hmay).1⟩⟩
    · cases hact
  | check token =>
    obtain ⟨run, _, hact⟩ := Option.bind_eq_some_iff.mp hact
    split at hact <;> cases hact
    exact .inl rfl
  | enqueueChildren token children =>
    obtain ⟨run, _, hact⟩ := Option.bind_eq_some_iff.mp hact
    split at hact <;> cases hact
    exact .inl rfl
  | call now op =>
    cases hact
    refine .inr ⟨now, op, rfl, .inl ?_⟩
    rintro id token failFast children rfl
    exact hlegal

theorem FlowSystemInv.step [DecidableEq V] {s t : FlowSystem V} {e : FlowEvent V} (hs : FlowStep s e t)
    (h : FlowSystemInv s) : FlowSystemInv t := by
  obtain ⟨hlegal, hact, hreuse⟩ := hs
  cases e with
  | claim now options =>
    cases hact
    exact h.claim now hlegal hreuse
  | ackFanOut now token failFast children answered =>
    obtain ⟨run, hr, hact⟩ := Option.bind_eq_some_iff.mp hact
    split at hact
    · rename_i hmay
      cases hact
      exact h.ackFanOut now failFast answered hr (Bool.and_eq_true_iff.mp hmay).1 hlegal hreuse
    · cases hact
  | check token =>
    obtain ⟨run, hr, hact⟩ := Option.bind_eq_some_iff.mp hact
    split at hact
    · rename_i children hphase
      cases hact
      refine h.setPhase hr fun children' hl => ?_
      rw [phaseChecked_landed hl]
      exact h.landed token run children hr (by rw [hphase]; rfl)
    · cases hact
  | enqueueChildren token children =>
    obtain ⟨run, hr, hact⟩ := Option.bind_eq_some_iff.mp hact
    split at hact
    · cases hact
      exact h.setPhase hr fun _ hl => by cases hl
    · cases hact
  | call now op =>
    cases hact
    refine h.call now op ?_ ?_ hreuse
    · rintro options rfl
      exact hlegal
    · cases op with
      | ack id token outcome => cases outcome <;> trivial
      | _ => trivial

theorem reachable_flowSystemInv [DecidableEq V] {s : FlowSystem V}
    (h : Reachable FlowStart FlowStep s) : FlowSystemInv s := by
  refine h.induct (I := FlowSystemInv) ?_ fun s e t hs h => h.step hs
  rintro s rfl
  refine ⟨.empty, fun _ _ _ hj => ?_, fun _ _ _ hr => ?_⟩
  · cases hj
  · cases hr

/-! ## Once per flow -/

def Parked (s : FlowSystem V) (id : JobId) : Prop :=
  ∃ job, s.store.jobs.get? id = some job ∧ job.state = .waitingChildren

def Creates (id : JobId) (s : FlowSystem V) (_ : FlowEvent V) (t : FlowSystem V) : Prop :=
  manifest? s.store id = none ∧ (manifest? t.store id).isSome

def Enters (id : JobId) (s : FlowSystem V) (_ : FlowEvent V) (t : FlowSystem V) : Prop :=
  ¬ Parked s id ∧ Parked t id

def Leaves (id : JobId) (s : FlowSystem V) (_ : FlowEvent V) (t : FlowSystem V) : Prop :=
  Parked s id ∧ ¬ Parked t id

/-- A `recordChildResults` call answers a report of the flow with `parentSettled`. -/
def Settles (id : JobId) (s : FlowSystem V) (e : FlowEvent V) (_ : FlowSystem V) : Prop :=
  ∃ now reports i, e = .call now (.recordChildResults reports) ∧
    SettledAt reports (recordChildResults s.store now reports).1 i id

theorem notParked_iff {s : FlowSystem V} {id : JobId} :
    (s.store.toCore.view id).NotParked ↔ ¬ Parked s id :=
  ⟨fun h ⟨job, hj, hw⟩ => h job hj hw, fun h job hj hw => h ⟨job, hj, hw⟩⟩

theorem FlowSystemInv.of_parked {s : FlowSystem V} (h : FlowSystemInv s) {id : JobId} (hp : Parked s id) :
    Landed s.toLedger id := by
  obtain ⟨job, hj, hw⟩ := hp
  obtain ⟨flow, hf⟩ := (h.ledger.flow.booked id).marked job hj hw
  rw [h.ledger.landed_iff hj, hf]
  rfl

/-- A manifest that has landed is not overwritten. -/
theorem FlowStep.manifests [DecidableEq V] {s t : FlowSystem V} {e : FlowEvent V}
    (hs : FlowStep s e t) (h : FlowSystemInv s) {id : JobId} {children : List (FlowChildSpec V)}
    (hm : s.manifests.get? id = some children) : t.manifests.get? id = some children := by
  rcases hs.cases with heq | ⟨now, op, heq, _⟩
  · rwa [heq]
  · rw [heq]
    exact h.ledger.manifests_exec now op hm

theorem FlowStep.landed [DecidableEq V] {s t : FlowSystem V} {e : FlowEvent V}
    (hs : FlowStep s e t) (h : FlowSystemInv s) {id : JobId} (hl : Landed s.toLedger id) :
    Landed t.toLedger id := by
  obtain ⟨children, hm⟩ := Option.isSome_iff_exists.mp hl
  exact Option.isSome_iff_exists.mpr ⟨children, hs.manifests h hm⟩

/-- A parent whose manifest has landed is not parked again. -/
theorem FlowStep.notParked [DecidableEq V] {s t : FlowSystem V} {e : FlowEvent V}
    (hs : FlowStep s e t) (h : FlowSystemInv s) {id : JobId} (hl : Landed s.toLedger id)
    (hp : ¬ Parked s id) : ¬ Parked t id := by
  rw [← notParked_iff] at hp ⊢
  rcases hs.cases with heq | ⟨now, op, heq, hop | ⟨token, failFast, children, run, rfl, hr, hf⟩⟩
  · rwa [heq]
  · rw [heq]
    exact exec_notParked h.ledger.flow.keyed now op (hop id) hp
  · rw [heq]
    rcases h.ack_cases now failFast children hr hf with ⟨_, _, hstore⟩ | ⟨hnone, _⟩
    · exact (congrArg (fun c : Store V => (c.toCore.view id).NotParked) hstore).mpr hp
    · refine exec_notParked h.ledger.flow.keyed now _ (fun _ _ _ hop => ?_) hp
      cases hop
      rw [Landed, hnone] at hl
      cases hl

theorem creates_atMostOnce [DecidableEq V] (id : JobId) :
    AtMostOnce FlowStart FlowStep (Creates (V := V) id) := by
  refine .of_done (I := FlowSystemInv) (D := fun s => Landed s.toLedger id)
    (fun s hs => reachable_flowSystemInv hs) ?_ ?_ ?_
  · exact fun s e t h hs hc => (h.step hs).ledger.landed_of_manifest? hc.2
  · exact fun s e t h hs hl => hs.landed h hl
  · rintro s e t h hs hl ⟨hnone, hsome⟩
    have hj : s.store.jobs.get? id = none := by
      rcases h.ledger.persisted id with hj | heq
      · exact hj
      · rw [Landed, ← heq, hnone] at hl
        cases hl
    rw [manifest?_of_absent (h.step hs).ledger.flow (not_reuses hs.2.2 hl hj)] at hsome
    cases hsome

theorem enters_atMostOnce [DecidableEq V] (id : JobId) :
    AtMostOnce FlowStart FlowStep (Enters (V := V) id) := by
  refine .of_done (I := FlowSystemInv) (D := fun s => Landed s.toLedger id)
    (fun s hs => reachable_flowSystemInv hs) ?_ ?_ ?_
  · exact fun s e t h hs hp => (h.step hs).of_parked hp.2
  · exact fun s e t h hs hl => hs.landed h hl
  · exact fun s e t h hs hl hp => hs.notParked h hl hp.1 hp.2

theorem leaves_atMostOnce [DecidableEq V] (id : JobId) :
    AtMostOnce FlowStart FlowStep (Leaves (V := V) id) := by
  refine .of_done (I := FlowSystemInv) (D := fun s => Landed s.toLedger id ∧ ¬ Parked s id)
    (fun s hs => reachable_flowSystemInv hs) ?_ ?_ ?_
  · exact fun s e t h hs hp => ⟨hs.landed h (h.of_parked hp.1), hp.2⟩
  · exact fun s e t h hs hd => ⟨hs.landed h hd.1, hs.notParked h hd.1 hd.2⟩
  · exact fun s e t h hs hd hp => hd.2 hp.1

theorem settles_atMostOnce [DecidableEq V] (id : JobId) :
    AtMostOnce FlowStart FlowStep (Settles (V := V) id) := by
  refine (leaves_atMostOnce id).mono ?_
  rintro s e t hreach ⟨_, hact, _⟩ ⟨now, reports, i, rfl, hset⟩
  cases hact
  obtain ⟨hbefore, hafter⟩ :=
    recordChildResults_settled (reachable_flowSystemInv hreach).ledger.flow.keyed now reports hset
  exact ⟨by_contra fun hp => hbefore (notParked_iff.mpr hp), notParked_iff.mp hafter⟩

/-- What holds of one parent id in every run of the workers. -/
structure OncePerFlow (V : Type) [DecidableEq V] (id : JobId) : Prop where
  creates : AtMostOnce FlowStart FlowStep (Creates (V := V) id)
  /-- The manifest stays as it is for as long as the parent exists. -/
  unchanged : ∀ (s t : FlowSystem V) es children, Reachable FlowStart FlowStep s →
    Run FlowStep s es t → manifest? s.store id = some children →
    manifest? t.store id = some children ∨ t.store.jobs.get? id = none
  enters : AtMostOnce FlowStart FlowStep (Enters (V := V) id)
  leaves : AtMostOnce FlowStart FlowStep (Leaves (V := V) id)
  settles : AtMostOnce FlowStart FlowStep (Settles (V := V) id)
  /-- Nor do two reports of one batch settle it. -/
  settlesOnce : ∀ (s : FlowSystem V) now reports i j, Reachable FlowStart FlowStep s →
    SettledAt reports (recordChildResults s.store now reports).1 i id →
    SettledAt reports (recordChildResults s.store now reports).1 j id → i = j
  /-- Children are enqueued from the manifest that landed, which is the one in the store. -/
  enqueued : ∀ (s t : FlowSystem V) token run children, Reachable FlowStart FlowStep s →
    FlowStep s (.enqueueChildren token children) t → s.runs.get? token = some run → run.id = id →
    ∃ specs, s.manifests.get? id = some specs ∧ (∀ child ∈ children, child ∈ specs) ∧
      (s.store.jobs.get? id = none ∨ manifest? s.store id = some specs)

/-- A flow fans out once and settles once, and only children of its manifest are enqueued. -/
theorem flow_once [DecidableEq V] (id : JobId) : OncePerFlow V id where
  creates := creates_atMostOnce id
  enters := enters_atMostOnce id
  leaves := leaves_atMostOnce id
  settles := settles_atMostOnce id
  unchanged := by
    intro s t es children hs hr hm
    let I : FlowSystem V → Prop := fun s => FlowSystemInv s ∧ s.manifests.get? id = some children
    have h := reachable_flowSystemInv hs
    have hstart : I s := by
      refine ⟨h, ?_⟩
      rcases h.ledger.persisted id with hj | heq
      · rw [manifest?_of_absent h.ledger.flow hj] at hm
        cases hm
      · rw [← heq, hm]
    have hend : I t :=
      hr.preserves (fun s e t hs ⟨h, hm⟩ => ⟨h.step hs, hs.manifests h hm⟩) hstart
    rcases hend.1.ledger.persisted id with hj | heq
    · exact .inr hj
    · exact .inl (heq.trans hend.2)
  settlesOnce := fun s now reports i j hs hi hj =>
    recordChildResults_settled_once (reachable_flowSystemInv hs).ledger.flow.keyed now reports hi hj
  enqueued := by
    rintro s t token run children hs ⟨_, hact, _⟩ hr rfl
    have h := reachable_flowSystemInv hs
    obtain ⟨run', hr', hact⟩ := Option.bind_eq_some_iff.mp hact
    cases hr.symm.trans hr'
    split at hact
    · rename_i hphase
      have hm := h.landed token run children hr (by rw [hphase]; rfl)
      refine ⟨children, hm, fun _ hc => hc, ?_⟩
      rw [← hm]
      exact h.ledger.persisted run.id
    · cases hact

def onlyChild (key : String) : FlowChildSpec Unit :=
  ⟨key, "kids", .plain ("p/" ++ key) "child" "q" ()⟩

/-- A fan-out loses its lock to stall recovery, and the second one lands first. -/
def slowFanOut : List (FlowEvent Unit) :=
  [.call 0 (.enqueue (.plain "p" "flow" "q" ()) .counter),
    .claim 1 ⟨"q", ["flow"], "slow", 10⟩,
    .call 20 (.recoverStalled 5),
    .claim 21 ⟨"q", ["flow"], "fast", 10⟩,
    .ackFanOut 22 "fast" false [onlyChild "a"] true,
    .ackFanOut 23 "slow" false [onlyChild "b"] true,
    .check "fast"]

example : (slowFanOut.foldlM flowAct ⟨⟨Store.empty, ∅⟩, ∅⟩).map
    (fun s => (manifest? s.store "p", s.runs.values.map (·.phase))) =
    some (some [onlyChild "a"], [.over, .enqueuing [onlyChild "a"]]) := rfl

end EffectMq.Worker
