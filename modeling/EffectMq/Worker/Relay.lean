import EffectMq.Flow
import EffectMq.MemoryJobStore.Outbox
import EffectMq.MemoryJobStore.Redelivery

/-! # Relaying child results between two stores

A parent store, a child store and any number of relays, each at its own place in `relayDrain`. A
call of a relay that got no answer is repeated, a group that failed is left for the next pass, and a
relay may stop anywhere. The sweepers' synthesized reports are `recordChildResults` calls on the
parent store, which otherwise takes every operation.

Children come from landed fan-outs (`enqueueChild`) and stay in the child store, which neither
removes, prunes nor retries them. `enqueued` is a history variable: the row each child belongs to.
`RelayInv` says that a terminal child's report is in the outbox, outside every group a relay is about to
delete, or its row is not pending.
-/

namespace EffectMq.Worker
set_option autoImplicit false
set_option maxHeartbeats 250000

open Transition Memory

variable {V : Type}

/-! ## State -/

abbrev Groups (V : Type) := List (String × List (OutboxEntry V))

/-- Where a drain stands: before a page, before a group's delivery, or before its deletion. -/
inductive RelayPhase (V : Type)
  | peeking
  | delivering (groups : Groups V) (lastPage : Bool)
  | deleting (ids : List ℕ) (groups : Groups V) (lastPage : Bool)
  deriving DecidableEq

structure Relay (V : Type) where
  after : Option ℕ
  phase : RelayPhase V
  deriving DecidableEq

def Relay.start : Relay V := ⟨none, .peeking⟩

structure TwoStores (V : Type) where
  parent : Ledger V
  child : Store V
  enqueued : JsMap JobId (JobId × String)
  relays : ℕ → Relay V

/-! ## Events -/

inductive RelayEvent (V : Type)
  | parent (now : Millis) (op : Op V)
  | child (now : Millis) (op : Op V)
  | enqueueChild (now : Millis) (flowId : JobId) (spec : FlowChildSpec V)
  | peek (relay : ℕ) (routes : List String)
  | deliver (relay : ℕ) (now : Millis) (answered : Bool)
  | delete (relay : ℕ) (answered : Bool)
  | skip (relay : ℕ)
  | turnPage (relay : ℕ)
  | crash (relay : ℕ)

def relayPageSize : ℕ := 500

/-- An entry no route leads to is left out. -/
def addToGroup (routes : List String) (byStore : JsMap String (List (OutboxEntry V)))
    (entry : OutboxEntry V) : JsMap String (List (OutboxEntry V)) :=
  if entry.parentStoreKey ∈ routes then
    byStore.set entry.parentStoreKey ((byStore.get? entry.parentStoreKey).getD [] ++ [entry])
  else byStore

/-- The entries of a page by parent store. -/
def groupByStore (routes : List String) (entries : List (OutboxEntry V)) :
    JsMap String (List (OutboxEntry V)) :=
  entries.foldl (addToGroup routes) ∅

def peekPage (child : Store V) (routes : List String) (after : Option ℕ) : Relay V :=
  let entries := peekOutbox child relayPageSize after
  match entries.getLast? with
  | none => .start
  | some last =>
    ⟨some last.id,
      .delivering (groupByStore routes entries).entries (decide (entries.length < relayPageSize))⟩

def TwoStores.setRelay (s : TwoStores V) (relay : ℕ) (r : Relay V) : TwoStores V :=
  { s with relays := Function.update s.relays relay r }

/-- Only a group for this parent store reaches it; the others go elsewhere. -/
def deliverGroup (parentKey : String) (parent : Ledger V) (now : Millis)
    (group : String × List (OutboxEntry V)) : Ledger V :=
  if group.1 = parentKey then
    parent.exec now (.recordChildResults (group.2.map (·.report)))
  else parent

/-- The child store dedups on the id, so only a fresh id enters the history. -/
def enqueueSpec (s : TwoStores V) (now : Millis) (flowId : JobId) (spec : FlowChildSpec V)
    (id : JobId) : TwoStores V :=
  let child := exec s.child now (.enqueue spec.request .counter)
  { s with
    child
    enqueued :=
      if s.child.jobs.has id = false ∧ child.jobs.has id = true then
        s.enqueued.set id (flowId, spec.childKey)
      else s.enqueued }

def relayAct (parentKey : String) (s : TwoStores V) : RelayEvent V → Option (TwoStores V)
  | .parent now op => some { s with parent := s.parent.exec now op }
  | .child now op => some { s with child := exec s.child now op }
  | .enqueueChild now flowId spec => spec.request.id.map (enqueueSpec s now flowId spec)
  | .peek relay routes =>
    match (s.relays relay).phase with
    | .peeking => some (s.setRelay relay (peekPage s.child routes (s.relays relay).after))
    | _ => none
  | .deliver relay now answered =>
    match (s.relays relay).phase with
    | .delivering (group :: groups) lastPage =>
      let s := { s with parent := deliverGroup parentKey s.parent now group }
      some (if answered then
          s.setRelay relay { s.relays relay with
            phase := .deleting (group.2.map (·.id)) groups lastPage }
        else s)
    | _ => none
  | .delete relay answered =>
    match (s.relays relay).phase with
    | .deleting ids groups lastPage =>
      let s := { s with child := deleteOutbox s.child ids }
      some (if answered then
          s.setRelay relay { s.relays relay with phase := .delivering groups lastPage }
        else s)
    | _ => none
  | .skip relay =>
    match (s.relays relay).phase with
    | .delivering (_ :: groups) lastPage | .deleting _ groups lastPage =>
      some (s.setRelay relay { s.relays relay with phase := .delivering groups lastPage })
    | _ => none
  | .turnPage relay =>
    match (s.relays relay).phase with
    | .delivering [] lastPage =>
      some (s.setRelay relay ⟨if lastPage then none else (s.relays relay).after, .peeking⟩)
    | _ => none
  | .crash relay => some (s.setRelay relay .start)

/-- Fan-outs ack what `buildSpecs` built, children come from landed manifests, only relays delete
outbox entries, and children are neither retried nor deleted. -/
def RelayEvent.Legal (parentKey childKey : String) (s : TwoStores V) : RelayEvent V → Prop
  | .parent _ op => op.FansOut (Built parentKey)
  | .child now op =>
    (∀ ids, op ≠ .deleteOutbox ids) ∧ ∀ id, s.enqueued.has id → op ≠ .retry id ∧
      (exec s.child now op).jobs.has id
  | .enqueueChild _ flowId spec =>
    ∃ children, s.parent.manifests.get? flowId = some children ∧ spec ∈ children ∧
      spec.storeKey = childKey
  | _ => True

def RelayStep (parentKey childKey : String) (s : TwoStores V) (e : RelayEvent V)
    (t : TwoStores V) : Prop :=
  e.Legal parentKey childKey s ∧ relayAct parentKey s e = some t ∧ ¬ s.parent.Reuses t.parent

def RelayStart (s : TwoStores V) : Prop :=
  s.parent = ⟨Store.empty, ∅⟩ ∧ s.child = Store.empty ∧ s.enqueued = ∅ ∧
    ∀ relay, s.relays relay = .start

/-! ## The invariant -/

/-- A peeked entry: whatever the outbox holds under its id is this entry. -/
def Known (child : Store V) (entry : OutboxEntry V) : Prop :=
  entry.id ≤ child.outboxSeq ∧ ∀ e ∈ child.outbox, e.id = entry.id → e = entry

def RelayPhase.groups : RelayPhase V → Groups V
  | .peeking => []
  | .delivering groups _ | .deleting _ groups _ => groups

/-- The entries a relay has delivered and is about to delete. -/
def RelayPhase.ids : RelayPhase V → List ℕ
  | .deleting ids _ _ => ids
  | _ => []

structure PhaseOk (child : Store V) (phase : RelayPhase V) : Prop where
  groups : ∀ group ∈ phase.groups, ∀ entry ∈ group.2,
    entry.parentStoreKey = group.1 ∧ Known child entry
  ids : ∀ id ∈ phase.ids, id ≤ child.outboxSeq

/-- The report of a child is in the outbox, and no relay is about to delete it. -/
def Undelivered (parentKey : String) (s : TwoStores V) (report : FlowChildReport V) : Prop :=
  ∃ e ∈ s.child.outbox, e.parentStoreKey = parentKey ∧ e.report = report ∧
    ∀ relay, e.id ∉ (s.relays relay).phase.ids

def childReport (flowId : JobId) (childKey : String) (outcome : TerminalState) (job : MemJob V) :
    FlowChildReport V :=
  ⟨flowId, childKey, outcome, job.exit, job.failedReason⟩

structure RelayInv (parentKey : String) (s : TwoStores V) : Prop where
  parent : LedgerInv (Built parentKey) s.parent
  child : FlowInv Covers s.child
  entries : ∀ e ∈ s.child.outbox, e.id ≤ s.child.outboxSeq
  nodup : (s.child.outbox.map (·.id)).Nodup
  phases : ∀ relay, PhaseOk s.child (s.relays relay).phase
  enqueued : ∀ id flowId childKey, s.enqueued.get? id = some (flowId, childKey) →
    id = childJobId parentKey flowId childKey ∧ Landed s.parent flowId ∧
    ∃ job flowName depth, s.child.jobs.get? id = some job ∧
      job.parent = some ⟨flowName, flowId, childKey, parentKey, depth⟩
  reported : ∀ id flowId childKey job outcome,
    s.enqueued.get? id = some (flowId, childKey) → s.child.jobs.get? id = some job →
    job.state.terminal? = some outcome →
    ¬ Waits s.parent.store flowId childKey ∨
      Undelivered parentKey s (childReport flowId childKey outcome job)

/-! ## Steps of the child store -/

theorem terminal?_isTerminal {state : JobState} {outcome : TerminalState}
    (h : state.terminal? = some outcome) : state.isTerminal = true := by
  cases state <;> first | rfl | cases h

/-- An operation that deletes no entry keeps the outbox and adds entries under new ids. -/
theorem exec_outbox_append {c : Store V} (h : FlowInv Covers c) (now : Millis) {op : Op V}
    (hop : ∀ ids, op ≠ .deleteOutbox ids) :
    ∃ ended, (exec c now op).outbox = c.outbox ++ reports c.outboxSeq ended ∧
      (exec c now op).outboxSeq = c.outboxSeq + (reports c.outboxSeq ended).length := by
  obtain ⟨ended, hout, hseq, _⟩ := exec_outbox h now op
  have hdropped : op.dropped = [] := by
    cases op with
    | deleteOutbox ids => exact absurd rfl (hop ids)
    | _ => rfl
  refine ⟨ended, ?_, hseq⟩
  rw [hout, hdropped]
  simp

theorem Known.exec {c : Store V} (h : FlowInv Covers c) (now : Millis) {op : Op V}
    (hop : ∀ ids, op ≠ .deleteOutbox ids) {entry : OutboxEntry V} (hk : Known c entry) :
    Known (exec c now op) entry := by
  obtain ⟨ended, hout, hseq⟩ := exec_outbox_append h now hop
  refine ⟨?_, fun e he hid => ?_⟩
  · have hle := hk.1
    omega
  · rw [hout, List.mem_append] at he
    rcases he with he | he
    · exact hk.2 e he hid
    · have hlt := (mem_reports he).1
      have hle := hk.1
      omega

theorem PhaseOk.exec {c : Store V} (h : FlowInv Covers c) (now : Millis) {op : Op V}
    (hop : ∀ ids, op ≠ .deleteOutbox ids) {phase : RelayPhase V} (hp : PhaseOk c phase) :
    PhaseOk (Memory.exec c now op) phase := by
  obtain ⟨ended, _, hseq⟩ := exec_outbox_append h now hop
  refine ⟨fun group hg entry he => ?_, fun id hid => ?_⟩
  · obtain ⟨hkey, hknown⟩ := hp.groups group hg entry he
    exact ⟨hkey, hknown.exec h now hop⟩
  · have hle := hp.ids id hid
    omega

/-- A child that an operation ends has its report appended. -/
theorem exec_reports {c : Store V} (h : FlowInv Covers c) (now : Millis) {op : Op V}
    (hop : ∀ ids, op ≠ .deleteOutbox ids) {id : JobId} {job job' : MemJob V}
    {envelope : ParentEnvelope} {outcome : TerminalState} (hj : c.jobs.get? id = some job)
    (hlive : job.state.isTerminal = false) (hj' : (exec c now op).jobs.get? id = some job')
    (hp : job'.parent = some envelope) (ho : job'.state.terminal? = some outcome) :
    ∃ n, c.outboxSeq < n ∧ outboxEntry n job' envelope outcome ∈ (exec c now op).outbox := by
  obtain ⟨ended, hout, hseq, _, heach, hall⟩ := exec_outbox h now op
  have ht := terminal?_isTerminal ho
  have hremove : op ≠ .remove id := by
    rintro rfl
    have hgone : (remove c id).2.jobs.get? id = some job' := hj'
    unfold remove at hgone
    simp only [hj] at hgone
    split at hgone
    · cases hj.symm.trans hgone
      rw [ht] at hlive
      cases hlive
    · simp [Core.deleteJob] at hgone
  have hmem : id ∈ ended.map (·.id) := hall id job hj hlive hremove fun j hj'' => by
    cases hj'.symm.trans hj''
    exact ht
  obtain ⟨r, hr, rfl⟩ := List.mem_map.mp hmem
  obtain ⟨_, _, hget⟩ := heach r hr
  have hrj : r = job' := by
    rcases hget with hget | hget
    · exact Option.some.inj (hget.symm.trans hj')
    · cases hget.symm.trans hj'
  obtain ⟨n, hn⟩ := exists_report hr (hrj ▸ hp) (hrj ▸ ho) c.outboxSeq
  refine ⟨n, (mem_reports hn).1, ?_⟩
  rw [hout, ← hrj]
  exact List.mem_append_right _ hn

theorem RelayInv.child_exec {parentKey : String} {s : TwoStores V} (h : RelayInv parentKey s)
    (now : Millis) (op : Op V) (hop : ∀ ids, op ≠ .deleteOutbox ids)
    (hkeep : ∀ id, s.enqueued.has id → op ≠ .retry id ∧ (exec s.child now op).jobs.has id) :
    RelayInv parentKey { s with child := exec s.child now op } := by
  obtain ⟨ended, hout, hseq⟩ := exec_outbox_append h.child now hop
  have henqueued : ∀ id flowId childKey, s.enqueued.get? id = some (flowId, childKey) →
      ∃ job job' envelope, s.child.jobs.get? id = some job ∧
        (exec s.child now op).jobs.get? id = some job' ∧ job.parent = some envelope ∧
        job'.parent = some envelope ∧ envelope.flowId = flowId ∧ envelope.childKey = childKey ∧
        envelope.parentStoreKey = parentKey ∧ op ≠ .retry id := by
    intro id flowId childKey hid
    obtain ⟨_, _, job, flowName, depth, hj, hp⟩ := h.enqueued id flowId childKey hid
    obtain ⟨hretry, hhas⟩ := hkeep id (JsMap.has_eq_true.mpr ⟨_, hid⟩)
    obtain ⟨job', hj'⟩ := JsMap.has_eq_true.mp hhas
    exact ⟨job, job', _, hj, hj', hp, (exec_parent h.child.keyed now op hj hj').trans hp, rfl, rfl,
      rfl, hretry⟩
  refine ⟨h.parent, h.child.exec covers_accounts now op.fans_all, ?_, ?_, ?_, ?_, ?_⟩
  · intro e he
    simp only [hout, List.mem_append] at he
    rcases he with he | he
    · have hle := h.entries e he
      simp only [hseq]
      omega
    · simp only [hseq]
      exact (mem_reports he).2
  · simp only [hout, List.map_append, List.nodup_append]
    refine ⟨h.nodup, reports_nodup ended _, ?_⟩
    rintro a ha b hb rfl
    obtain ⟨e, he, rfl⟩ := List.mem_map.mp ha
    obtain ⟨e', he', hid⟩ := List.mem_map.mp hb
    have hle := h.entries e he
    have hlt := (mem_reports he').1
    omega
  · exact fun relay => (h.phases relay).exec h.child now hop
  · intro id flowId childKey hid
    obtain ⟨job, job', ⟨flowName, _, _, _, depth⟩, _, hj', _, hp', rfl, rfl, rfl, _⟩ :=
      henqueued id flowId childKey hid
    obtain ⟨heq, hlanded, _⟩ := h.enqueued id _ _ hid
    exact ⟨heq, hlanded, job', flowName, depth, hj', hp'⟩
  · intro id flowId childKey job'' outcome hid hj'' ho
    obtain ⟨job, job', envelope, hj, hj', hp, hp', rfl, rfl, hkey, hretry⟩ :=
      henqueued id flowId childKey hid
    cases hj'.symm.trans hj''
    cases ht : job.state.isTerminal with
    | true =>
      -- a terminal record stays as it is, and so does its entry
      rcases exec_terminal h.child.keyed h.child.booked now op hj ht (fun _ => hretry) with
        hsame | hnone
      · cases hj'.symm.trans hsame
        refine (h.reported id _ _ _ outcome hid hj ho).imp_right ?_
        rintro ⟨e, he, hrest⟩
        refine ⟨e, ?_, hrest⟩
        simp only [hout]
        exact List.mem_append_left _ he
      · cases hj'.symm.trans hnone
    | false =>
      obtain ⟨n, hlt, hmem⟩ := exec_reports h.child now hop hj ht hj' hp' ho
      refine .inr ⟨_, hmem, hkey, rfl, fun relay hids => ?_⟩
      have hle := (h.phases relay).ids _ hids
      simp only [outboxEntry] at hle
      omega

/-- A child of a landed fan-out is live when it enters its store. -/
theorem RelayInv.enqueueSpec {parentKey : String} {s : TwoStores V} (h : RelayInv parentKey s)
    (now : Millis) {flowId : JobId} {spec : FlowChildSpec V} {id : JobId}
    {children : List (FlowChildSpec V)} (hid : spec.request.id = some id)
    (hlanded : s.parent.manifests.get? flowId = some children) (hspec : spec ∈ children) :
    RelayInv parentKey (enqueueSpec s now flowId spec id) := by
  have hbuilt := h.parent.built flowId children hlanded
  have hid' : id = childJobId parentKey flowId spec.childKey :=
    Option.some.inj (hid.symm.trans (hbuilt.id spec hspec))
  have hkeeps : ∀ i, s.enqueued.has i →
      (exec s.child now (.enqueue spec.request .counter)).jobs.has i := by
    intro i hi
    obtain ⟨⟨f, k⟩, hget⟩ := JsMap.has_eq_true.mp hi
    obtain ⟨_, _, job, _, _, hj, _⟩ := h.enqueued i f k hget
    exact enqueue_keeps h.child.keyed now spec.request .counter (by rw [hj]; rfl)
  have hchild := h.child_exec now (.enqueue spec.request .counter) (fun _ heq => by cases heq)
    fun i hi => ⟨fun heq => (by cases heq), hkeeps i hi⟩
  unfold Worker.enqueueSpec
  simp only
  split
  · rename_i hfresh
    obtain ⟨habsent, hpresent⟩ := hfresh
    obtain ⟨job, hj⟩ := JsMap.has_eq_true.mp hpresent
    obtain ⟨hparent, hlive⟩ := enqueue_fresh h.child.keyed now spec.request .counter
      (JsMap.has_eq_false.mp habsent) hj
    refine ⟨hchild.parent, hchild.child, hchild.entries, hchild.nodup, hchild.phases, ?_, ?_⟩
    · intro i f k hget
      rw [JsMap.get?_set] at hget
      split at hget
      · rename_i heq
        cases hget
        obtain ⟨flowName, depth, henvelope⟩ := hbuilt.parent spec hspec
        refine ⟨heq.trans hid', ?_, job, flowName, depth, heq ▸ hj, hparent.trans henvelope⟩
        rw [Landed, hlanded]
        rfl
      · exact hchild.enqueued i f k hget
    · intro i f k job' outcome hget hj' ho
      rw [JsMap.get?_set] at hget
      split at hget
      · rename_i heq
        have hj' : (exec s.child now (.enqueue spec.request .counter)).jobs.get? i = some job' := hj'
        rw [heq, hj] at hj'
        cases hj'
        rw [terminal?_isTerminal ho] at hlive
        cases hlive
      · exact hchild.reported i f k job' outcome hget hj' ho
  · exact hchild

/-! ## Steps of the relays -/

theorem groupByStore_mem (routes : List String) (entries : List (OutboxEntry V)) :
    ∀ group ∈ (groupByStore routes entries).entries, ∀ entry ∈ group.2,
      entry ∈ entries ∧ entry.parentStoreKey = group.1 := by
  have hfold : ∀ (rest : List (OutboxEntry V)) (m : JsMap String (List (OutboxEntry V))),
      (∀ e ∈ rest, e ∈ entries) →
      (∀ key group, m.get? key = some group → ∀ e ∈ group, e ∈ entries ∧ e.parentStoreKey = key) →
      ∀ key group, (rest.foldl (addToGroup routes) m).get? key = some group →
      ∀ e ∈ group, e ∈ entries ∧ e.parentStoreKey = key := by
    intro rest
    induction rest with
    | nil => exact fun m _ h => h
    | cons entry rest ih =>
      intro m hrest h
      refine ih _ (fun e he => hrest e (by simp [he])) ?_
      rw [addToGroup]
      split
      · intro key group hg e he
        rw [JsMap.get?_set] at hg
        split at hg
        · rename_i hkey
          cases hg
          rcases List.mem_append.mp he with he | he
          · cases hold : m.get? entry.parentStoreKey with
            | none =>
              rw [hold] at he
              cases he
            | some old =>
              rw [hold] at he
              exact hkey ▸ h _ old hold e he
          · cases List.mem_singleton.mp he
            exact ⟨hrest entry (by simp), hkey.symm⟩
        · exact h key group hg e he
      · exact h
  intro group hg
  exact hfold entries ∅ (fun _ h => h) (fun _ _ h => by cases h) group.1 group.2
    (JsMap.get?_eq_some.mpr hg)

theorem mem_peekOutbox {c : Store V} {limit : ℕ} {after : Option ℕ} {e : OutboxEntry V}
    (h : e ∈ peekOutbox c limit after) : e ∈ c.outbox := by
  unfold peekOutbox at h
  have h := List.mem_of_mem_take h
  cases after with
  | none => exact h
  | some seq => exact List.mem_of_mem_filter h

theorem RelayInv.known {parentKey : String} {s : TwoStores V} (h : RelayInv parentKey s)
    {entry : OutboxEntry V} (he : entry ∈ s.child.outbox) : Known s.child entry :=
  ⟨h.entries entry he, fun _ he' hid => List.inj_on_of_nodup_map h.nodup he' he hid⟩

/-- A relay moves on without touching a store. -/
theorem RelayInv.setRelay {parentKey : String} {s : TwoStores V} (h : RelayInv parentKey s)
    (relay : ℕ) {r : Relay V} (hp : PhaseOk s.child r.phase) (hids : r.phase.ids = []) :
    RelayInv parentKey (s.setRelay relay r) := by
  have hphase : ∀ i, (s.setRelay relay r).relays i = if i = relay then r else s.relays i := by
    intro i
    simp [TwoStores.setRelay, Function.update_apply]
  refine ⟨h.parent, h.child, h.entries, h.nodup, fun i => ?_, h.enqueued, ?_⟩
  · rw [hphase]
    split
    · exact hp
    · exact h.phases i
  · intro id flowId childKey job outcome hid hj ho
    refine (h.reported id flowId childKey job outcome hid hj ho).imp_right ?_
    rintro ⟨e, he, hkey, hreport, hfree⟩
    refine ⟨e, he, hkey, hreport, fun i => ?_⟩
    rw [hphase]
    split
    · simp [hids]
    · exact hfree i

theorem phaseOk_start (c : Store V) : PhaseOk c (Relay.start : Relay V).phase :=
  ⟨fun _ hg => absurd hg List.not_mem_nil, fun _ hid => absurd hid List.not_mem_nil⟩

theorem RelayInv.peek {parentKey : String} {s : TwoStores V} (h : RelayInv parentKey s)
    (relay : ℕ) (routes : List String) (after : Option ℕ) :
    RelayInv parentKey (s.setRelay relay (peekPage s.child routes after)) := by
  have hpage : PhaseOk s.child (peekPage s.child routes after).phase ∧
      (peekPage s.child routes after).phase.ids = [] := by
    unfold peekPage
    simp only
    split
    · exact ⟨phaseOk_start s.child, rfl⟩
    · refine ⟨⟨fun group hg entry he => ?_, fun _ h => by cases h⟩, rfl⟩
      obtain ⟨hmem, hkey⟩ := groupByStore_mem routes _ group hg entry he
      exact ⟨hkey, h.known (mem_peekOutbox hmem)⟩
  exact h.setRelay relay hpage.1 hpage.2

/-- The parent store takes any operation: a landed row that is not pending stays so. -/
theorem RelayInv.parent_exec {parentKey : String} {s : TwoStores V} (h : RelayInv parentKey s)
    (now : Millis) {op : Op V} (hop : op.FansOut (Built parentKey))
    (hreuse : ¬ s.parent.Reuses (s.parent.exec now op)) :
    RelayInv parentKey { s with parent := s.parent.exec now op } := by
  have hparent := h.parent.exec (fun _ _ hb => hb.keys) now op hop hreuse
  refine ⟨hparent, h.child, h.entries, h.nodup, h.phases, ?_, ?_⟩
  · intro id flowId childKey hid
    obtain ⟨heq, hlanded, hjob⟩ := h.enqueued id flowId childKey hid
    exact ⟨heq, h.parent.landed_exec now op hlanded, hjob⟩
  · intro id flowId childKey job outcome hid hj ho
    refine (h.reported id flowId childKey job outcome hid hj ho).imp_left fun hn hw => ?_
    exact hn (h.parent.waits_exec hreuse hparent.flow (h.enqueued id flowId childKey hid).2.1 hw)

/-- The rows of a delivered group are not pending. -/
theorem deliverGroup_answered {parentKey : String} {parent : Ledger V}
    (h : LedgerInv (Built parentKey) parent) (now : Millis)
    {group : String × List (OutboxEntry V)} {entry : OutboxEntry V} (he : entry ∈ group.2)
    (hkey : entry.parentStoreKey = group.1) (hparent : entry.parentStoreKey = parentKey) :
    ¬ Waits (deliverGroup parentKey parent now group).store entry.report.flowId
      entry.report.childKey := by
  rw [deliverGroup, if_pos (hkey.symm.trans hparent)]
  exact recordChildResults_answered h.flow.keyed now (List.mem_map_of_mem he)

theorem RelayInv.delivered {parentKey : String} {s : TwoStores V} (h : RelayInv parentKey s)
    {relay : ℕ} {group : String × List (OutboxEntry V)} {groups : Groups V} {lastPage : Bool}
    {after : Option ℕ} (hok : PhaseOk s.child (.delivering (group :: groups) lastPage))
    (hanswered : ∀ entry ∈ group.2, entry.parentStoreKey = parentKey →
      ¬ Waits s.parent.store entry.report.flowId entry.report.childKey) :
    RelayInv parentKey
      (s.setRelay relay ⟨after, .deleting (group.2.map (·.id)) groups lastPage⟩) := by
  have hgroup := hok.groups group List.mem_cons_self
  have hphase : ∀ i, (s.setRelay relay
      ⟨after, .deleting (group.2.map (·.id)) groups lastPage⟩).relays i =
        if i = relay then ⟨after, .deleting (group.2.map (·.id)) groups lastPage⟩
        else s.relays i := by
    intro i
    simp [TwoStores.setRelay, Function.update_apply]
  refine ⟨h.parent, h.child, h.entries, h.nodup, fun i => ?_, h.enqueued, ?_⟩
  · rw [hphase]
    split
    · refine ⟨fun g hg => hok.groups g (List.mem_cons_of_mem _ hg), fun id hid => ?_⟩
      obtain ⟨entry, he, rfl⟩ := List.mem_map.mp hid
      exact (hgroup entry he).2.1
    · exact h.phases i
  · intro id flowId childKey job outcome hid hj ho
    rcases h.reported id flowId childKey job outcome hid hj ho with
      hn | ⟨e, he, hkey, hreport, hfree⟩
    · exact .inl hn
    · by_cases hin : e.id ∈ group.2.map (·.id)
      · obtain ⟨entry, hentry, hide⟩ := List.mem_map.mp hin
        obtain rfl := (hgroup entry hentry).2.2 e he hide.symm
        have hn := hanswered e hentry hkey
        rw [hreport] at hn
        exact .inl hn
      · refine .inr ⟨e, he, hkey, hreport, fun i => ?_⟩
        rw [hphase]
        split
        · exact hin
        · exact hfree i

/-- A relay deletes what it has delivered. -/
theorem RelayInv.delete {parentKey : String} {s : TwoStores V} (h : RelayInv parentKey s)
    (relay : ℕ) : RelayInv parentKey
      { s with child := deleteOutbox s.child (s.relays relay).phase.ids } := by
  have hchild : FlowInv Covers (deleteOutbox s.child (s.relays relay).phase.ids) :=
    h.child.exec covers_accounts 0 (Op.fans_all (.deleteOutbox (s.relays relay).phase.ids))
  have hmem : ∀ e ∈ (deleteOutbox s.child (s.relays relay).phase.ids).outbox,
      e ∈ s.child.outbox := fun e he => List.mem_of_mem_filter he
  refine ⟨h.parent, hchild, fun e he => h.entries e (hmem e he), ?_, fun i => ?_, h.enqueued, ?_⟩
  · exact h.nodup.sublist (List.filter_sublist.map _)
  · refine ⟨fun group hg entry he => ?_, (h.phases i).ids⟩
    obtain ⟨hkey, hle, huniq⟩ := (h.phases i).groups group hg entry he
    exact ⟨hkey, hle, fun e he' => huniq e (hmem e he')⟩
  · intro id flowId childKey job outcome hid hj ho
    refine (h.reported id flowId childKey job outcome hid hj ho).imp_right ?_
    rintro ⟨e, he, hkey, hreport, hfree⟩
    refine ⟨e, ?_, hkey, hreport, hfree⟩
    exact List.mem_filter.mpr ⟨he, decide_eq_true (hfree relay)⟩

/-! ## Steps -/

theorem RelayInv.step {parentKey childKey : String} {s t : TwoStores V} {e : RelayEvent V}
    (hs : RelayStep parentKey childKey s e t) (h : RelayInv parentKey s) :
    RelayInv parentKey t := by
  obtain ⟨hlegal, hact, hreuse⟩ := hs
  cases e with
  | parent now op =>
    cases hact
    exact h.parent_exec now hlegal hreuse
  | child now op =>
    cases hact
    exact h.child_exec now op hlegal.1 hlegal.2
  | enqueueChild now flowId spec =>
    obtain ⟨children, hlanded, hspec, _⟩ := hlegal
    obtain ⟨id, hid, rfl⟩ := Option.map_eq_some_iff.mp hact
    exact h.enqueueSpec now hid hlanded hspec
  | peek relay routes =>
    simp only [relayAct] at hact
    split at hact
    · cases hact
      exact h.peek relay routes _
    · cases hact
  | deliver relay now answered =>
    simp only [relayAct] at hact
    split at hact
    · rename_i group groups lastPage hphase
      have hok := h.phases relay
      rw [hphase] at hok
      have hgroup := hok.groups group List.mem_cons_self
      have hdeliver : ¬ s.parent.Reuses (deliverGroup parentKey s.parent now group) →
          RelayInv parentKey { s with parent := deliverGroup parentKey s.parent now group } := by
        intro hr
        unfold deliverGroup at hr ⊢
        split
        · rename_i hkey
          rw [if_pos hkey] at hr
          exact h.parent_exec now trivial hr
        · exact h
      cases answered with
      | false =>
        cases hact
        exact hdeliver hreuse
      | true =>
        cases hact
        exact (hdeliver hreuse).delivered hok fun entry he hkey =>
          deliverGroup_answered h.parent now he (hgroup entry he).1 hkey
    · cases hact
  | delete relay answered =>
    simp only [relayAct] at hact
    split at hact
    · rename_i ids groups lastPage hphase
      have hdelete := h.delete relay
      rw [hphase] at hdelete
      cases answered with
      | false =>
        cases hact
        exact hdelete
      | true =>
        cases hact
        have hok := hdelete.phases relay
        have hrelay : ({ s with child := deleteOutbox s.child ids } : TwoStores V).relays relay =
            s.relays relay := rfl
        rw [hrelay, hphase] at hok
        exact hdelete.setRelay relay ⟨hok.groups, fun _ hid => absurd hid List.not_mem_nil⟩ rfl
    · cases hact
  | skip relay =>
    simp only [relayAct] at hact
    have hok := h.phases relay
    split at hact
    · rename_i hphase
      cases hact
      rw [hphase] at hok
      exact h.setRelay relay ⟨fun g hg => hok.groups g (List.mem_cons_of_mem _ hg),
        fun _ hid => absurd hid List.not_mem_nil⟩ rfl
    · rename_i hphase
      cases hact
      rw [hphase] at hok
      exact h.setRelay relay ⟨hok.groups, fun _ hid => absurd hid List.not_mem_nil⟩ rfl
    · cases hact
  | turnPage relay =>
    simp only [relayAct] at hact
    split at hact
    · cases hact
      exact h.setRelay relay (phaseOk_start s.child) rfl
    · cases hact
  | crash relay =>
    cases hact
    exact h.setRelay relay (phaseOk_start s.child) rfl

theorem reachable_relayInv {parentKey childKey : String} {s : TwoStores V}
    (h : Reachable RelayStart (RelayStep parentKey childKey) s) : RelayInv parentKey s := by
  refine h.induct (I := RelayInv parentKey) ?_ fun s e t hs h => h.step hs
  rintro ⟨_, _, _, relays⟩ ⟨rfl, rfl, rfl, hrelays⟩
  have hstart : ∀ relay, relays relay = .start := hrelays
  obtain rfl : relays = fun _ => .start := funext hstart
  refine ⟨.empty, .empty Covers, fun e he => absurd he List.not_mem_nil, List.nodup_nil,
    fun _ => phaseOk_start _, ?_, ?_⟩
  · intro _ _ _ hid
    cases hid
  · intro _ _ _ _ _ hid
    cases hid

/-! ## Results are applied once and not lost -/

/-- A step leaves the parent store alone, or is one operation on it. -/
theorem RelayStep.parent_cases {parentKey childKey : String} {s t : TwoStores V}
    {e : RelayEvent V} (hs : RelayStep parentKey childKey s e t) :
    t.parent = s.parent ∨ ∃ now op, t.parent = s.parent.exec now op := by
  obtain ⟨_, hact, _⟩ := hs
  cases e with
  | parent now op =>
    cases hact
    exact .inr ⟨now, op, rfl⟩
  | deliver relay now answered =>
    simp only [relayAct] at hact
    split at hact
    · rename_i group groups lastPage _
      have hparent : t.parent = deliverGroup parentKey s.parent now group := by
        cases answered <;> cases hact <;> rfl
      rw [hparent, deliverGroup]
      split
      · exact .inr ⟨now, _, rfl⟩
      · exact .inl rfl
    · cases hact
  | enqueueChild now flowId spec =>
    obtain ⟨id, _, rfl⟩ := Option.map_eq_some_iff.mp hact
    exact .inl rfl
  | child | crash =>
    cases hact
    exact .inl rfl
  | delete relay answered =>
    simp only [relayAct] at hact
    split at hact
    · cases answered <;> cases hact <;> exact .inl rfl
    · cases hact
  | peek | skip | turnPage =>
    simp only [relayAct] at hact
    split at hact <;> cases hact <;> exact .inl rfl

theorem RelayStep.waits {parentKey childKey : String} {s t : TwoStores V} {e : RelayEvent V}
    (hs : RelayStep parentKey childKey s e t) (h : RelayInv parentKey s) {flowId : JobId}
    {key : String} (hl : Landed s.parent flowId) (hw : Waits t.parent.store flowId key) :
    Waits s.parent.store flowId key := by
  have ht := (h.step hs).parent.flow
  rcases hs.parent_cases with heq | ⟨now, op, heq⟩
  · rwa [← heq]
  · have hreuse := hs.2.2
    rw [heq] at ht hw hreuse
    exact h.parent.waits_exec hreuse ht hl hw

theorem RelayStep.landed {parentKey childKey : String} {s t : TwoStores V} {e : RelayEvent V}
    (hs : RelayStep parentKey childKey s e t) (h : RelayInv parentKey s) {flowId : JobId}
    (hl : Landed s.parent flowId) : Landed t.parent flowId := by
  rcases hs.parent_cases with heq | ⟨now, op, heq⟩
  · rwa [heq]
  · rw [heq]
    exact h.parent.landed_exec now op hl

def LeavesPending (flowId : JobId) (key : String) (s : TwoStores V) (_ : RelayEvent V)
    (t : TwoStores V) : Prop :=
  Waits s.parent.store flowId key ∧ ¬ Waits t.parent.store flowId key

/-- The row has left pending for good. -/
def Closed (flowId : JobId) (key : String) (s : TwoStores V) : Prop :=
  Landed s.parent flowId ∧ ¬ Waits s.parent.store flowId key

theorem Closed.step {parentKey childKey : String} {s t : TwoStores V} {e : RelayEvent V}
    (hs : RelayStep parentKey childKey s e t) (h : RelayInv parentKey s) {flowId : JobId}
    {key : String} (hc : Closed flowId key s) : Closed flowId key t :=
  ⟨hs.landed h hc.1, fun hw => hc.2 (hs.waits h hc.1 hw)⟩

theorem LeavesPending.closed {parentKey childKey : String} {s t : TwoStores V} {e : RelayEvent V}
    (hs : RelayStep parentKey childKey s e t) (h : RelayInv parentKey s) {flowId : JobId}
    {key : String} (hp : LeavesPending flowId key s e t) : Closed flowId key t :=
  ⟨hs.landed h (h.parent.landed_of_manifest? (waits_manifest? hp.1)), hp.2⟩

/-- What holds of the row `key` of flow `flowId` and of its child in every run. -/
structure ResultsOnce (V : Type) (parentKey childKey : String) (flowId : JobId) (key : String) :
    Prop where
  leaves : AtMostOnce RelayStart (RelayStep parentKey childKey)
    (LeavesPending (V := V) flowId key)
  /-- Once the row has left pending, any report for it, in any batch, is refused and makes no
  difference. -/
  later : ∀ (s t u : TwoStores V) e es now before report after,
    Reachable RelayStart (RelayStep parentKey childKey) s →
    RelayStep parentKey childKey s e t → LeavesPending flowId key s e t →
    Run (RelayStep parentKey childKey) t es u → report.flowId = flowId → report.childKey = key →
    (recordChildResults u.parent.store now (before ++ report :: after)).1[before.length]? =
        some ⟨false, false⟩ ∧
      (recordChildResults u.parent.store now (before ++ report :: after)).2 =
        (recordChildResults u.parent.store now (before ++ after)).2
  /-- The same for a second report of the row in one batch. -/
  duplicate : ∀ (s : TwoStores V) now before report after first,
    Reachable RelayStart (RelayStep parentKey childKey) s → first ∈ before →
    first.flowId = flowId → first.childKey = key → report.flowId = flowId →
    report.childKey = key →
    (recordChildResults s.parent.store now (before ++ report :: after)).1[before.length]? =
        some ⟨false, false⟩ ∧
      (recordChildResults s.parent.store now (before ++ report :: after)).2 =
        (recordChildResults s.parent.store now (before ++ after)).2
  /-- The result of a child of the landed manifest is in its store's outbox for as long as its row
  is pending. -/
  kept : ∀ (s : TwoStores V) children spec id job outcome,
    Reachable RelayStart (RelayStep parentKey childKey) s →
    s.parent.manifests.get? flowId = some children → spec ∈ children → spec.childKey = key →
    spec.request.id = some id → s.enqueued.has id → s.child.jobs.get? id = some job →
    job.state.terminal? = some outcome → Waits s.parent.store flowId key →
    ∃ e ∈ s.child.outbox, e.parentStoreKey = parentKey ∧
      e.report = childReport flowId key outcome job

/-- Child results are applied at most once and never lost. -/
theorem results_once (parentKey childKey : String) (flowId : JobId) (key : String) :
    ResultsOnce V parentKey childKey flowId key where
  leaves := by
    refine .of_done (I := RelayInv parentKey) (D := Closed flowId key)
      (fun s hs => reachable_relayInv hs) ?_ ?_ ?_
    · exact fun s e t h hs hp => hp.closed hs h
    · exact fun s e t h hs hc => hc.step hs h
    · exact fun s e t h hs hc hp => hc.2 hp.1
  later := by
    rintro s t u e es now before report after hs hstep hp hr rfl rfl
    have h := reachable_relayInv hs
    let I : TwoStores V → Prop := fun s =>
      RelayInv parentKey s ∧ Closed report.flowId report.childKey s
    have ht : I t := ⟨h.step hstep, hp.closed hstep h⟩
    have hu : I u := hr.preserves (fun s e t hs h => ⟨h.1.step hs, h.2.step hs h.1⟩) ht
    have hn := fun hwf : Waits u.parent.store report.flowId report.childKey ∧
      First (before ++ report :: after) before.length report => hu.2.2 hwf.1
    exact ⟨recordChildResults_refused hu.1.parent.flow.keyed now (by simp) hn,
      recordChildResults_idle hu.1.parent.flow.keyed now before after hn⟩
  duplicate := by
    rintro s now before report after first hs hmem rfl rfl hf hc
    have hk := (reachable_relayInv hs).parent.flow.keyed
    obtain ⟨j, hj⟩ := List.mem_iff_getElem?.mp hmem
    have hlt := (List.getElem?_eq_some_iff.mp hj).1
    have hn : ¬ (Waits s.parent.store report.flowId report.childKey ∧
        First (before ++ report :: after) before.length report) := fun hwf =>
      hwf.2 j hlt first (by rw [List.getElem?_append_left hlt, hj]) ⟨hf.symm, hc.symm⟩
    exact ⟨recordChildResults_refused hk now (by simp) hn,
      recordChildResults_idle hk now before after hn⟩
  kept := by
    rintro s children spec id job outcome hs hm hspec rfl hid henq hj ho hw
    have h := reachable_relayInv hs
    have hbuilt := (h.parent.built flowId children hm).id spec hspec
    obtain ⟨⟨flowId', key'⟩, hget⟩ := JsMap.has_eq_true.mp henq
    have heq := (h.enqueued id flowId' key' hget).1
    have hchild : childJobId parentKey flowId spec.childKey = childJobId parentKey flowId' key' :=
      (Option.some.inj (hbuilt.symm.trans hid)).trans heq
    obtain ⟨_, rfl, hkey⟩ := childJobId_injective hchild
    rw [hkey] at hw ⊢
    rcases h.reported id flowId key' job outcome hget hj ho with hn | ⟨e, he, hpk, hreport, _⟩
    · exact absurd hw hn
    · exact ⟨e, he, hpk, hreport⟩

end EffectMq.Worker
