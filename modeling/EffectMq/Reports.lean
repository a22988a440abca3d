import Mathlib.Data.List.Dedup
import Mathlib.Data.List.Induction
import EffectMq.JobStore

/-! # Child reports

What a batch of child reports does to the flows of a store, apart from any driver. A flow is a book:
its dependency rows and its parent. The reports are applied one by one, each only to a row that is
still pending, and then each flow that took a report gets at most one verdict: it fails fast, it
resumes, or it stays.

`recordAll_books` takes the result apart by flow. Without fail-fast a batch may be cut anywhere
(`after_append`), and reports on different rows may come in any order (`after_perm`).
-/

namespace EffectMq
set_option autoImplicit false
set_option maxHeartbeats 250000

variable {V : Type}

/-! ## Books -/

/-- A dependency row. -/
structure RowBook (V : Type) where
  status : ChildStatus
  exit : Option V
  failedReason : Option String
  cascaded : Bool
  deriving DecidableEq

/-- The parent of a flow: its state and counters, what it would report upward, and the outcomes in
its ledger. -/
structure ParentBook (V : Type) where
  state : JobState
  flow : Option FlowState
  exit : Option V
  failedReason : Option String
  envelope : Option ParentEnvelope
  outcomes : List AttemptOutcome
  deriving DecidableEq

/-- A flow; `pendingRows` is how many of its rows are pending. -/
@[ext] structure FlowBook (V : Type) where
  rows : String → Option (RowBook V)
  pendingRows : ℕ
  parent : Option (ParentBook V)

abbrev Books (V : Type) := JobId → FlowBook V

/-- A report with its place in the batch. -/
abbrev Placed (V : Type) := FlowChildReport V × ℕ

/-! ## Applying reports -/

def FlowState.counting (flow : FlowState) (outcome : TerminalState) : FlowState :=
  { flow with
    pending := flow.pending - 1
    completed := flow.completed + if outcome = .completed then 1 else 0
    failed := flow.failed + if outcome = .failed then 1 else 0
    cancelled := flow.cancelled + if outcome = .cancelled then 1 else 0 }

def ParentBook.counting (p : ParentBook V) (outcome : TerminalState) : ParentBook V :=
  { p with flow := p.flow.map (·.counting outcome) }

def reportedRow (report : FlowChildReport V) : RowBook V :=
  ⟨report.outcome.toChildStatus, report.exit, report.failedReason, true⟩

namespace FlowBook

def pends (b : FlowBook V) (childKey : String) : Bool :=
  (b.rows childKey).any fun row => decide (row.status = .pending)

def apply (b : FlowBook V) (report : FlowChildReport V) : FlowBook V where
  rows := Function.update b.rows report.childKey (some (reportedRow report))
  pendingRows := b.pendingRows - 1
  parent := b.parent.map (·.counting report.outcome)

end FlowBook

/-- The books, and the reports that were applied. -/
abbrev Recording (V : Type) := Books V × List (Placed V)

namespace Books

def step (acc : Recording V) (e : Placed V) : Recording V :=
  if (acc.1 e.1.flowId).pends e.1.childKey then
    (Function.update acc.1 e.1.flowId ((acc.1 e.1.flowId).apply e.1), acc.2 ++ [e])
  else acc

def recordAll (B : Books V) (es : List (Placed V)) : Recording V := es.foldl step (B, [])

end Books

def ofFlow (es : List (Placed V)) (flowId : JobId) : List (Placed V) :=
  es.filter fun e => decide (e.1.flowId = flowId)

/-! ## Verdicts -/

inductive Verdict
  | stays
  | resumes (index : ℕ)
  | fails (index : ℕ) (childKey : String)
  deriving DecidableEq, Repr

/-- The place of the report that decided. -/
def Verdict.index : Verdict → Option ℕ
  | .stays => none
  | .resumes index | .fails index _ => some index

def firstFailed (accepted : List (Placed V)) : Option (Placed V) :=
  accepted.find? fun e => decide (e.1.outcome = .failed)

/-- A waiting parent fails at the first failed report under fail-fast, and resumes at the last report
when nothing is pending. -/
def ParentBook.verdict (p : ParentBook V) (accepted : List (Placed V)) : Verdict :=
  match p.flow, accepted.getLast? with
  | some flow, some last =>
    if p.state ≠ .waitingChildren then .stays
    else
      match if flow.failFast then firstFailed accepted else none with
      | some e => .fails e.2 e.1.childKey
      | none => if flow.pending = 0 then .resumes last.2 else .stays
  | _, _ => .stays

def failedFastReason (childKey : String) : String :=
  "effect-mq: flow child \"" ++ childKey ++ "\" failed"

/-- A remaining pending row flips to cancelled, its cancel still owed. -/
def RowBook.marked (row : RowBook V) : RowBook V :=
  if row.status = .pending then { row with status := .cancelled, cascaded := false } else row

def FlowState.settled (flow : FlowState) (marked : ℕ) : FlowState :=
  { flow with pending := 0, cancelled := flow.cancelled + marked }

def ParentBook.failed (p : ParentBook V) (childKey : String) (marked : ℕ) : ParentBook V :=
  { p with
    state := .failed
    flow := p.flow.map (·.settled marked)
    failedReason := some (failedFastReason childKey)
    outcomes := p.outcomes ++ [.failed] }

namespace FlowBook

def verdict (b : FlowBook V) (accepted : List (Placed V)) : Verdict :=
  (b.parent.map (·.verdict accepted)).getD .stays

def enact (b : FlowBook V) : Verdict → FlowBook V
  | .stays => b
  | .resumes _ => { b with parent := b.parent.map fun p => { p with state := .waiting } }
  | .fails _ childKey =>
    { rows := fun key => (b.rows key).map (·.marked)
      pendingRows := 0
      parent := b.parent.map (·.failed childKey b.pendingRows) }

/-- What a flow that fails reports upward: flow name, parent store and report. -/
def sends (b : FlowBook V) : Verdict → Option (String × String × FlowChildReport V)
  | .fails _ childKey =>
    b.parent.bind fun p => p.envelope.map fun envelope =>
      (envelope.flowName, envelope.parentStoreKey,
        { flowId := envelope.flowId, childKey := envelope.childKey, outcome := .failed,
          exit := p.exit, failedReason := some (failedFastReason childKey) })
  | _ => none

end FlowBook

/-- What a verdict rests on. -/
theorem ParentBook.verdict_cases (p : ParentBook V) (accepted : List (Placed V)) :
    p.verdict accepted = .stays ∨
    (∃ last, accepted.getLast? = some last ∧ p.verdict accepted = .resumes last.2) ∨
    ∃ first, firstFailed accepted = some first ∧
      p.verdict accepted = .fails first.2 first.1.childKey ∧
      p.state = .waitingChildren ∧ ∃ flow, p.flow = some flow ∧ flow.failFast = true := by
  unfold ParentBook.verdict
  cases hflow : p.flow with
  | none => exact .inl rfl
  | some flow =>
    cases hlast : accepted.getLast? with
    | none => exact .inl rfl
    | some last =>
      by_cases hstate : p.state = .waitingChildren
      · simp only [hstate, ne_eq, not_true_eq_false, if_false]
        cases hfail : (if flow.failFast then firstFailed accepted else none) with
        | none =>
          by_cases hzero : flow.pending = 0
          · exact .inr (.inl ⟨last, rfl, if_pos hzero⟩)
          · exact .inl (if_neg hzero)
        | some first =>
          cases hfast : flow.failFast with
          | false =>
            rw [hfast] at hfail
            cases hfail
          | true =>
            rw [hfast, if_pos rfl] at hfail
            exact .inr (.inr ⟨first, hfail, rfl, trivial, flow, rfl, hfast⟩)
      · exact .inl (if_pos hstate)

theorem ParentBook.verdict_fails {p : ParentBook V} {accepted : List (Placed V)} {index : ℕ}
    {childKey : String} (h : p.verdict accepted = .fails index childKey) :
    p.state = .waitingChildren ∧ ∃ flow, p.flow = some flow ∧ flow.failFast = true := by
  rcases p.verdict_cases accepted with heq | ⟨_, _, heq⟩ | ⟨_, _, _, hstate, hflow⟩
  · rw [heq] at h
    cases h
  · rw [heq] at h
    cases h
  · exact ⟨hstate, hflow⟩

/-- A waiting parent fails fast when a failed report applied. -/
theorem ParentBook.verdict_fails_iff {p : ParentBook V} {accepted : List (Placed V)} :
    (∃ index childKey, p.verdict accepted = .fails index childKey) ↔
      p.state = .waitingChildren ∧ (∃ flow, p.flow = some flow ∧ flow.failFast = true) ∧
        ∃ e ∈ accepted, e.1.outcome = .failed := by
  constructor
  · rintro ⟨index, childKey, hfails⟩
    obtain ⟨hstate, hflow⟩ := ParentBook.verdict_fails hfails
    refine ⟨hstate, hflow, ?_⟩
    rcases p.verdict_cases accepted with heq | ⟨_, _, heq⟩ | ⟨first, hfirst, -⟩
    · cases heq.symm.trans hfails
    · cases heq.symm.trans hfails
    · have hfailed := List.find?_some hfirst
      exact ⟨first, List.mem_of_find?_eq_some hfirst, of_decide_eq_true hfailed⟩
  · rintro ⟨hstate, ⟨flow, hflow, hfast⟩, e, he, hfailed⟩
    obtain ⟨first, hfirst⟩ : ∃ first, firstFailed accepted = some first := by
      rw [← Option.isSome_iff_exists, firstFailed, List.find?_isSome]
      exact ⟨e, he, decide_eq_true hfailed⟩
    obtain ⟨last, hlast⟩ : ∃ last, accepted.getLast? = some last := by
      rw [← Option.isSome_iff_exists, List.getLast?_isSome]
      exact List.ne_nil_of_mem he
    refine ⟨first.2, first.1.childKey, ?_⟩
    unfold ParentBook.verdict
    simp only [hflow, hlast, hstate, hfast, hfirst, if_true, ne_eq, not_true_eq_false, if_false]

/-- A verdict comes from an applied report of the flow. -/
theorem ParentBook.verdict_index {p : ParentBook V} {accepted : List (Placed V)} {index : ℕ}
    (h : (p.verdict accepted).index = some index) : ∃ e ∈ accepted, e.2 = index := by
  rcases p.verdict_cases accepted with heq | ⟨last, hlast, heq⟩ | ⟨first, hfirst, heq, _⟩
  · rw [heq] at h
    cases h
  · rw [heq] at h
    exact ⟨last, List.mem_of_getLast? hlast, Option.some.inj h⟩
  · rw [heq] at h
    exact ⟨first, List.mem_of_find?_eq_some hfirst, Option.some.inj h⟩

theorem FlowBook.verdict_index {b : FlowBook V} {accepted : List (Placed V)} {index : ℕ}
    (h : (b.verdict accepted).index = some index) : ∃ e ∈ accepted, e.2 = index := by
  unfold FlowBook.verdict at h
  cases hparent : b.parent with
  | none =>
    rw [hparent] at h
    cases h
  | some p =>
    rw [hparent] at h
    exact ParentBook.verdict_index h

/-! ## A whole batch -/

namespace Books

def recorded (B : Books V) (reports : List (FlowChildReport V)) : Recording V :=
  B.recordAll reports.zipIdx

def verdict (r : Recording V) (flowId : JobId) : Verdict :=
  (r.1 flowId).verdict (ofFlow r.2 flowId)

def after (B : Books V) (reports : List (FlowChildReport V)) : Books V := fun flowId =>
  ((B.recorded reports).1 flowId).enact (verdict (B.recorded reports) flowId)

/-- The positional answer: applied, and parent settled. -/
def answer (B : Books V) (reports : List (FlowChildReport V)) : List (Bool × Bool) :=
  reports.zipIdx.map fun e =>
    (decide (e.2 ∈ (B.recorded reports).2.map Prod.snd),
      decide ((verdict (B.recorded reports) e.1.flowId).index = some e.2))

/-- The flows that took a report, each once. -/
def touched (r : Recording V) : List JobId := (r.2.map (·.1.flowId)).dedup

def sent (B : Books V) (reports : List (FlowChildReport V)) :
    List (String × String × FlowChildReport V) :=
  (touched (B.recorded reports)).filterMap fun flowId =>
    ((B.recorded reports).1 flowId).sends (verdict (B.recorded reports) flowId)

end Books

/-! ## Flow by flow -/

@[simp] theorem ofFlow_nil (flowId : JobId) : ofFlow ([] : List (Placed V)) flowId = [] := rfl

theorem ofFlow_append (es es' : List (Placed V)) (flowId : JobId) :
    ofFlow (es ++ es') flowId = ofFlow es flowId ++ ofFlow es' flowId := List.filter_append ..

theorem ofFlow_singleton (e : Placed V) (flowId : JobId) :
    ofFlow [e] flowId = if e.1.flowId = flowId then [e] else [] := by
  by_cases h : e.1.flowId = flowId <;> simp [ofFlow, h]

theorem mem_ofFlow {es : List (Placed V)} {flowId : JobId} {e : Placed V} :
    e ∈ ofFlow es flowId ↔ e ∈ es ∧ e.1.flowId = flowId := by
  simp [ofFlow]

theorem ofFlow_map_shift (es : List (Placed V)) (n : ℕ) (flowId : JobId) :
    ofFlow (es.map fun e => (e.1, e.2 + n)) flowId =
      (ofFlow es flowId).map fun e => (e.1, e.2 + n) := by
  rw [ofFlow, List.filter_map]
  rfl

namespace FlowBook

/-- The reports of one flow. -/
def applyAll (b : FlowBook V) (accepted : List (Placed V)) : FlowBook V :=
  accepted.foldl (fun b e => b.apply e.1) b

theorem applyAll_append (b : FlowBook V) (es es' : List (Placed V)) :
    b.applyAll (es ++ es') = (b.applyAll es).applyAll es' := List.foldl_append ..

theorem applyAll_parent (b : FlowBook V) (es : List (Placed V)) :
    (b.applyAll es).parent = b.parent.map fun p => es.foldl (fun p e => p.counting e.1.outcome) p := by
  induction es generalizing b with
  | nil => simp [applyAll]
  | cons e es ih =>
    rw [applyAll, List.foldl_cons, ← applyAll, ih, apply, Option.map_map]
    rfl

end FlowBook

/-- The parent after the reports: only the counters move. -/
theorem ParentBook.foldl_counting (p : ParentBook V) (es : List (Placed V)) :
    es.foldl (fun p e => p.counting e.1.outcome) p =
      { p with flow := p.flow.map fun flow =>
          es.foldl (fun flow e => FlowState.counting flow e.1.outcome) flow } := by
  induction es generalizing p with
  | nil => simp
  | cons e es ih =>
    rw [List.foldl_cons, ih]
    simp [ParentBook.counting, Option.map_map, Function.comp_def]

theorem FlowState.foldl_counting (flow : FlowState) (es : List (Placed V)) :
    (es.foldl (fun flow e => FlowState.counting flow e.1.outcome) flow).failFast = flow.failFast ∧
    (es.foldl (fun flow e => FlowState.counting flow e.1.outcome) flow).pending =
      flow.pending - es.length := by
  induction es generalizing flow with
  | nil => simp
  | cons e es ih =>
    rw [List.foldl_cons, (ih _).1, (ih _).2, List.length_cons]
    refine ⟨rfl, ?_⟩
    rw [FlowState.counting, Nat.sub_sub, Nat.add_comm]

namespace Books

theorem recordAll_append (B : Books V) (es es' : List (Placed V)) :
    B.recordAll (es ++ es') =
      ((B.recordAll es).1.recordAll es' |>.1,
        (B.recordAll es).2 ++ ((B.recordAll es).1.recordAll es').2) := by
  have hacc : ∀ (es' : List (Placed V)) (B : Books V) (accepted : List (Placed V)),
      es'.foldl step (B, accepted) =
        ((es'.foldl step (B, [])).1, accepted ++ (es'.foldl step (B, [])).2) := by
    intro es'
    induction es' with
    | nil => simp
    | cons e es' ih =>
      intro B accepted
      rw [List.foldl_cons, List.foldl_cons, step, step]
      simp only
      split
      · rw [ih _ (accepted ++ [e]), ih _ ([] ++ [e])]
        simp
      · exact ih B accepted
  rw [recordAll, List.foldl_append]
  exact hacc es' (B.recordAll es).1 (B.recordAll es).2

theorem recordAll_snoc (B : Books V) (es : List (Placed V)) (e : Placed V) :
    B.recordAll (es ++ [e]) = step (B.recordAll es) e := List.foldl_append ..

/-- A book is the old one with the applied reports of its flow. -/
theorem recordAll_books (B : Books V) (es : List (Placed V)) (flowId : JobId) :
    (B.recordAll es).1 flowId = (B flowId).applyAll (ofFlow (B.recordAll es).2 flowId) := by
  induction es using List.reverseRecOn with
  | nil => rfl
  | append_singleton es e ih =>
    rw [recordAll_snoc, step]
    split
    · simp only
      rw [ofFlow_append, FlowBook.applyAll_append, ← ih, ofFlow_singleton]
      by_cases hflow : e.1.flowId = flowId
      · rw [if_pos hflow, ← hflow, Function.update_self]
        rfl
      · rw [if_neg hflow, Function.update_of_ne (Ne.symm hflow)]
        rfl
    · exact ih

theorem accepted_sublist (B : Books V) (es : List (Placed V)) : (B.recordAll es).2.Sublist es := by
  induction es using List.reverseRecOn with
  | nil => exact .slnil
  | append_singleton es e ih =>
    rw [recordAll_snoc, step]
    split
    · exact ih.append (.refl _)
    · exact ih.trans (List.sublist_append_left es [e])

theorem recordAll_shift (B : Books V) (es : List (Placed V)) (n : ℕ) :
    B.recordAll (es.map fun e => (e.1, e.2 + n)) =
      ((B.recordAll es).1, (B.recordAll es).2.map fun e => (e.1, e.2 + n)) := by
  induction es using List.reverseRecOn with
  | nil => rfl
  | append_singleton es e ih =>
    rw [List.map_append, List.map_cons, List.map_nil, recordAll_snoc, recordAll_snoc, ih, step, step]
    simp only
    split <;> simp

end Books

namespace Books

theorem mem_touched {r : Recording V} {flowId : JobId} :
    flowId ∈ touched r ↔ ofFlow r.2 flowId ≠ [] := by
  rw [touched, List.mem_dedup, List.mem_map]
  constructor
  · rintro ⟨e, he, hflow⟩
    exact List.ne_nil_of_mem (mem_ofFlow.mpr ⟨he, hflow⟩)
  · intro hne
    obtain ⟨e, he⟩ := List.exists_mem_of_ne_nil _ hne
    exact ⟨e, (mem_ofFlow.mp he).1, (mem_ofFlow.mp he).2⟩

theorem verdict_touched {r : Recording V} {flowId : JobId} {index : ℕ}
    (h : (verdict r flowId).index = some index) : flowId ∈ touched r := by
  obtain ⟨e, he, -⟩ := FlowBook.verdict_index h
  exact mem_touched.mpr (List.ne_nil_of_mem he)

theorem verdict_of_untouched {r : Recording V} {flowId : JobId} (h : flowId ∉ touched r) :
    verdict r flowId = .stays := by
  rw [mem_touched, not_not] at h
  rw [verdict, h, FlowBook.verdict]
  cases (r.1 flowId).parent with
  | none => rfl
  | some p => simp [ParentBook.verdict]

end Books

/-! ## In two phases

A driver records every report, then decides flow by flow. -/

/-- What the first phase remembers about a flow: its last applied report, and the first failed one. -/
def noted {α : Type} (first : Placed V → α) (accepted : List (Placed V)) : Option (ℕ × Option α) :=
  accepted.getLast?.map fun last => (last.2, (firstFailed accepted).map first)

theorem noted_eq_none {α : Type} (first : Placed V → α) {accepted : List (Placed V)} :
    noted first accepted = none ↔ accepted = [] := by
  rw [noted, Option.map_eq_none_iff, List.getLast?_eq_none_iff]

theorem noted_snoc {α : Type} (first : Placed V → α) (accepted : List (Placed V)) (e : Placed V) :
    noted first (accepted ++ [e]) =
      some (e.2, (((noted first accepted).getD (e.2, none)).2).or
        (if e.1.outcome = .failed then some (first e) else none)) := by
  have hfirst : ((noted first accepted).getD (e.2, none)).2 = (firstFailed accepted).map first := by
    cases hlast : accepted.getLast? with
    | none =>
      rw [List.getLast?_eq_none_iff] at hlast
      simp [noted, firstFailed, hlast]
    | some last => simp [noted, hlast]
  rw [hfirst, noted, List.getLast?_concat, Option.map_some, firstFailed, List.find?_append,
    ← firstFailed]
  cases firstFailed accepted with
  | some e' => simp
  | none => by_cases hfailed : e.1.outcome = .failed <;> simp [hfailed]

theorem set_zipIdx {α β : Type} (xs : List α) (f : α × ℕ → β) (k : ℕ) (b : β) :
    (xs.zipIdx.map f).set k b = xs.zipIdx.map fun e => if e.2 = k then b else f e := by
  apply List.ext_getElem?
  intro i
  rw [List.getElem?_set, List.getElem?_map, List.getElem?_map, List.length_map, List.length_zipIdx]
  by_cases hk : k = i
  · subst hk
    by_cases hlt : k < xs.length
    · simp [hlt]
    · simp [hlt]
  · rw [if_neg hk]
    cases hx : xs.zipIdx[i]? with
    | none => rfl
    | some e =>
      rw [List.getElem?_zipIdx] at hx
      obtain ⟨x, _, rfl⟩ := Option.map_eq_some_iff.mp hx
      rw [Option.map_some, Option.map_some, if_neg]
      simpa using Ne.symm hk

/-- A loop that decides each flow once. -/
theorem foldlM_decides {E α ε : Type} {P : List JobId → α → Prop} {f : α → E → Except ε α}
    (key : E → JobId) (entries : List E) (hnodup : (entries.map key).Nodup)
    (hstep : ∀ done acc, ∀ entry ∈ entries, key entry ∉ done → P done acc →
      ∃ acc', f acc entry = .ok acc' ∧ P (done ++ [key entry]) acc')
    {acc : α} (h : P [] acc) :
    ∃ acc', entries.foldlM f acc = .ok acc' ∧ P (entries.map key) acc' := by
  have hfrom : ∀ (rest : List E) (done : List JobId) (acc : α), (∀ e ∈ rest, e ∈ entries) →
      (done ++ rest.map key).Nodup → P done acc →
      ∃ acc', rest.foldlM f acc = .ok acc' ∧ P (done ++ rest.map key) acc' := by
    intro rest
    induction rest with
    | nil =>
      intro done acc _ _ h
      rw [List.map_nil, List.append_nil]
      exact ⟨acc, rfl, h⟩
    | cons entry rest ih =>
      intro done acc hmem hnodup h
      rw [List.map_cons, List.append_cons] at hnodup ⊢
      have hnew : key entry ∉ done := by
        have hhead := hnodup.sublist (List.sublist_append_left ..)
        rw [List.nodup_append] at hhead
        exact fun hmem => hhead.2.2 _ hmem _ (List.mem_singleton.mpr rfl) rfl
      obtain ⟨acc', hok, hnext⟩ := hstep done acc entry (hmem entry List.mem_cons_self) hnew h
      obtain ⟨acc'', hok', hlast⟩ :=
        ih _ acc' (fun e he => hmem e (List.mem_cons_of_mem _ he)) hnodup hnext
      refine ⟨acc'', ?_, hlast⟩
      rw [List.foldlM_cons, hok]
      exact hok'
  exact hfrom entries [] acc (fun _ he => he) hnodup h

namespace Books

/-- Recording moves the counters of a manifest and nothing else of it. -/
theorem recorded_manifest {B : Books V} {reports : List (FlowChildReport V)} {flowId : JobId} {p : ParentBook V}
    (hp : ((B.recorded reports).1 flowId).parent = some p) {flow : FlowState}
    (hflow : p.flow = some flow) :
    ∃ p₀ flow₀, (B flowId).parent = some p₀ ∧ p₀.flow = some flow₀ ∧
      flow₀.failFast = flow.failFast := by
  rw [recorded, recordAll_books, FlowBook.applyAll_parent] at hp
  obtain ⟨p₀, hp₀, rfl⟩ := Option.map_eq_some_iff.mp hp
  rw [ParentBook.foldl_counting] at hflow
  obtain ⟨flow₀, hflow₀, rfl⟩ := Option.map_eq_some_iff.mp hflow
  exact ⟨p₀, flow₀, hp₀, hflow₀, (flow₀.foldl_counting _).1.symm⟩

/-- A flow that took a report, with the manifest it had before. -/
theorem touched_manifest {B : Books V} {reports : List (FlowChildReport V)} {flowId : JobId}
    (h : flowId ∈ touched (B.recorded reports)) {p : ParentBook V}
    (hp : ((B.recorded reports).1 flowId).parent = some p) {flow : FlowState}
    (hflow : p.flow = some flow) :
    ∃ report ∈ reports, report.flowId = flowId ∧ ∃ p₀ flow₀, (B flowId).parent = some p₀ ∧
      p₀.flow = some flow₀ ∧ flow₀.failFast = flow.failFast := by
  obtain ⟨e, he⟩ := List.exists_mem_of_ne_nil _ (mem_touched.mp h)
  obtain ⟨hmem, rfl⟩ := mem_ofFlow.mp he
  exact ⟨e.1, List.fst_mem_of_mem_zipIdx ((accepted_sublist B reports.zipIdx).subset hmem), rfl,
    recorded_manifest hp hflow⟩

/-- The answer of the first phase: nothing has settled. -/
def flags (reports : List (FlowChildReport V)) (accepted : List (Placed V)) : List (Bool × Bool) :=
  reports.zipIdx.map fun e => (decide (e.2 ∈ accepted.map Prod.snd), false)

theorem flags_nil (reports : List (FlowChildReport V)) :
    flags reports [] = reports.map fun _ => (false, false) := by
  conv_rhs => rw [← List.zipIdx_map_fst 0 reports, List.map_map]
  rfl

theorem flags_snoc (reports : List (FlowChildReport V)) (accepted : List (Placed V)) (e : Placed V) :
    flags reports (accepted ++ [e]) = (flags reports accepted).set e.2 (true, false) := by
  rw [flags, flags, set_zipIdx]
  apply List.map_congr_left
  intro e' _
  by_cases hindex : e'.2 = e.2
  · simp [hindex]
  · simp [hindex]

/-- The answer once a flow is decided. -/
def answerAt (answers : List (Bool × Bool)) (v : Verdict) : List (Bool × Bool) :=
  match v.index with
  | none => answers
  | some index => answers.set index (true, true)

/-- The second phase when the flows of `done` are decided: `start` are the books it found. -/
structure Decided (start : Books V) (reports : List (FlowChildReport V)) (r : Recording V)
    (posted : List (String × String × FlowChildReport V)) (done : List JobId)
    (answers : List (Bool × Bool)) (B : Books V)
    (sent : List (String × String × FlowChildReport V)) : Prop where
  answered : answers = reports.zipIdx.map fun e =>
    (decide (e.2 ∈ r.2.map Prod.snd),
      decide (e.1.flowId ∈ done ∧ (verdict r e.1.flowId).index = some e.2))
  enacted : B = fun flowId =>
    if flowId ∈ done then (r.1 flowId).enact (verdict r flowId) else start flowId
  sends : sent = posted ++ done.filterMap fun flowId => (r.1 flowId).sends (verdict r flowId)

theorem Decided.start (start : Books V) (reports : List (FlowChildReport V)) (r : Recording V)
    (posted : List (String × String × FlowChildReport V)) :
    Decided start reports r posted [] (flags reports r.2) start posted := by
  constructor <;> simp [flags]

section Decided

variable {start B : Books V} {reports : List (FlowChildReport V)} {r : Recording V}
  {posted sent : List (String × String × FlowChildReport V)} {done : List JobId}
  {answers : List (Bool × Bool)}

theorem Decided.step (h : Decided start reports r posted done answers B sent)
    (hsub : r.2.Sublist reports.zipIdx) {flowId : JobId} (hnew : flowId ∉ done) :
    Decided start reports r posted (done ++ [flowId]) (answerAt answers (verdict r flowId))
      (Function.update B flowId ((r.1 flowId).enact (verdict r flowId)))
      (sent ++ ((r.1 flowId).sends (verdict r flowId)).toList) := by
  refine ⟨?_, ?_, ?_⟩
  · rw [h.answered, answerAt]
    cases hindex : (verdict r flowId).index with
    | none =>
      apply List.map_congr_left
      intro e _
      by_cases hflow : e.1.flowId = flowId
      · simp [hflow, hnew, hindex]
      · simp [hflow]
    | some index =>
      dsimp only
      rw [set_zipIdx]
      apply List.map_congr_left
      intro e he
      obtain ⟨first, hfirst, hplace⟩ := FlowBook.verdict_index hindex
      obtain ⟨hmem, hflow⟩ := mem_ofFlow.mp hfirst
      have hin := hsub.subset hmem
      by_cases hplaced : e.2 = index
      · -- the report that decides
        have hsame : e = first := by
          rw [List.mem_zipIdx_iff_getElem?] at he hin
          rw [hplaced, ← hplace, hin] at he
          exact Prod.ext (Option.some.inj he).symm (hplaced.trans hplace.symm)
        rw [if_pos hplaced, hplaced, hsame, hflow, hindex,
          decide_eq_true (hplace ▸ List.mem_map_of_mem hmem)]
        simp
      · rw [if_neg hplaced]
        by_cases hflow' : e.1.flowId = flowId
        · simp [hflow', hnew, hindex, Ne.symm hplaced]
        · simp [hflow']
  · rw [h.enacted]
    funext id
    by_cases hid : id = flowId
    · subst hid
      rw [Function.update_self, if_pos (by simp)]
    · rw [Function.update_of_ne hid]
      simp [hid]
  · rw [h.sends, List.append_assoc, List.filterMap_append]
    rfl

/-- Every touched flow is decided once, in any order. -/
theorem Decided.all (h : Decided start reports r posted done answers B sent) {B₀ : Books V}
    (hr : r = B₀.recorded reports) (hnodup : done.Nodup)
    (hmem : ∀ flowId, flowId ∈ done ↔ flowId ∈ touched r)
    (hstart : ∀ flowId, flowId ∉ touched r → start flowId = r.1 flowId) :
    answers = B₀.answer reports ∧ B = B₀.after reports ∧
      sent.Perm (posted ++ B₀.sent reports) := by
  subst hr
  refine ⟨?_, ?_, ?_⟩
  · rw [h.answered, answer]
    apply List.map_congr_left
    intro e _
    refine Prod.ext rfl (decide_eq_decide.mpr ?_)
    rw [hmem]
    exact and_iff_right_of_imp verdict_touched
  · rw [h.enacted]
    funext flowId
    rw [after]
    split
    · rfl
    · rename_i huntouched
      rw [hmem] at huntouched
      rw [hstart _ huntouched, verdict_of_untouched huntouched]
      rfl
  · rw [h.sends]
    have hperm := (List.perm_ext_iff_of_nodup hnodup (List.nodup_dedup _)).mpr hmem
    exact (hperm.filterMap _).append_left _

end Decided

end Books

/-! ## Without fail-fast -/

/-- No reported flow fails fast. -/
def Books.Slow (B : Books V) (reports : List (FlowChildReport V)) : Prop :=
  ∀ report ∈ reports, ∀ p, (B report.flowId).parent = some p → ∀ flow, p.flow = some flow →
    flow.failFast = false

/-- A waiting parent with nothing pending. -/
def ParentBook.ready (p : ParentBook V) : Bool :=
  decide (p.state = .waitingChildren) && p.flow.any fun flow => decide (flow.pending = 0)

namespace FlowBook

/-- A flow that took a report resumes when its parent is ready. -/
def resumes (b : FlowBook V) (accepted : List (Placed V)) : Bool :=
  !accepted.isEmpty && b.parent.any (·.ready)

def resumed (b : FlowBook V) (on : Bool) : FlowBook V :=
  { b with parent := b.parent.map fun p => { p with state := if on then .waiting else p.state } }

theorem resumed_false (b : FlowBook V) : b.resumed false = b := by
  simp [resumed]

theorem resumed_resumed (b : FlowBook V) (on on' : Bool) :
    (b.resumed on).resumed on' = b.resumed (on || on') := by
  cases on <;> cases on' <;> simp [resumed, Option.map_map, Function.comp_def]

theorem verdict_of_slow {b : FlowBook V} (accepted : List (Placed V))
    (h : ∀ p, b.parent = some p → ∀ flow, p.flow = some flow → flow.failFast = false) :
    if b.resumes accepted then ∃ last ∈ accepted, b.verdict accepted = .resumes last.2
    else b.verdict accepted = .stays := by
  unfold verdict resumes
  cases hparent : b.parent with
  | none => simp
  | some p =>
    cases hflow : p.flow with
    | none => simp [ParentBook.verdict, ParentBook.ready, hflow]
    | some flow =>
      have hslow := h p hparent flow hflow
      cases hlast : accepted.getLast? with
      | none =>
        rw [List.getLast?_eq_none_iff] at hlast
        simp [ParentBook.verdict, hlast]
      | some last =>
        have hmem := List.mem_of_getLast? hlast
        have hempty : accepted.isEmpty = false := by
          rw [List.isEmpty_eq_false_iff]
          exact List.ne_nil_of_mem hmem
        by_cases hstate : p.state = .waitingChildren
        · by_cases hzero : flow.pending = 0
          · have hready : p.ready = true := by simp [ParentBook.ready, hflow, hstate, hzero]
            have hverdict : p.verdict accepted = .resumes last.2 := by
              simp [ParentBook.verdict, hflow, hlast, hstate, hslow, hzero]
            simp only [hempty, Option.any_some, hready, Option.map_some, Option.getD_some, hverdict]
            exact ⟨last, hmem, rfl⟩
          · simp [ParentBook.verdict, ParentBook.ready, hflow, hlast, hslow, hzero]
        · simp [ParentBook.verdict, ParentBook.ready, hflow, hlast, hstate]

theorem apply_resumed (b : FlowBook V) (on : Bool) (report : FlowChildReport V) :
    (b.resumed on).apply report = (b.apply report).resumed on := by
  simp [apply, resumed, Option.map_map, Function.comp_def, ParentBook.counting]

/-- A batch cut in two: the parent resumes after the whole when it resumes after one of the parts,
and after one only. -/
theorem resumes_append (b : FlowBook V) (as as' : List (Placed V)) :
    (b.applyAll as').resumes (as ++ as') =
        (b.resumes as || ((b.applyAll as').resumed (b.resumes as)).resumes as') ∧
      ¬(b.resumes as = true ∧
        ((b.applyAll as').resumed (b.resumes as)).resumes as' = true) := by
  have hparent := b.applyAll_parent as'
  cases hp : b.parent with
  | none =>
    rw [hp, Option.map_none] at hparent
    simp [resumes, resumed, hp, hparent]
  | some p =>
    obtain ⟨state, flow?, exit, failedReason, envelope, outcomes⟩ := p
    rw [hp, Option.map_some, ParentBook.foldl_counting] at hparent
    cases flow? with
    | none =>
      rw [Option.map_none] at hparent
      simp [resumes, resumed, hp, hparent, ParentBook.ready]
    | some flow =>
      have hpending := (flow.foldl_counting as').2
      rw [Option.map_some] at hparent
      generalize as'.foldl (fun flow e => FlowState.counting flow e.1.outcome) flow = flow'
        at hparent hpending
      by_cases hstate : state = .waitingChildren
      · -- once nothing is pending, nothing will be
        by_cases hzero : flow.pending = 0
        · rw [hzero, Nat.zero_sub] at hpending
          cases as <;> simp [resumes, resumed, hparent, hp, ParentBook.ready, hstate, hzero, hpending]
        · cases as' with
          | nil =>
            rw [List.length_nil, Nat.sub_zero] at hpending
            simp [resumes, resumed, hparent, hp, ParentBook.ready, hzero, hpending]
          | cons a' as' => simp [resumes, resumed, hparent, hp, ParentBook.ready, hzero]
      · simp [resumes, resumed, hparent, hp, ParentBook.ready, hstate]

end FlowBook

namespace Books

variable {B : Books V}

theorem zipIdx_shift (ys : List (FlowChildReport V)) (n : ℕ) :
    ys.zipIdx n = ys.zipIdx.map fun e => (e.1, e.2 + n) := by
  rw [List.zipIdx_eq_map_add]
  apply List.map_congr_left
  intro e _
  rw [Nat.add_comm]

/-- The second part of a batch is recorded where the first left off. -/
theorem recorded_append (B : Books V) (xs ys : List (FlowChildReport V)) :
    B.recorded (xs ++ ys) =
      (((B.recorded xs).1.recorded ys).1,
        (B.recorded xs).2 ++
          ((B.recorded xs).1.recorded ys).2.map fun e => (e.1, e.2 + xs.length)) := by
  rw [recorded, List.zipIdx_append, recordAll_append, Nat.zero_add, zipIdx_shift ys xs.length,
    recordAll_shift]
  rfl

theorem step_of_pends (acc : Recording V) (e : Placed V)
    (h : (acc.1 e.1.flowId).pends e.1.childKey = true) :
    step acc e = (Function.update acc.1 e.1.flowId ((acc.1 e.1.flowId).apply e.1), acc.2 ++ [e]) :=
  if_pos h

theorem step_of_not (acc : Recording V) (e : Placed V)
    (h : (acc.1 e.1.flowId).pends e.1.childKey = false) : step acc e = acc :=
  if_neg (by rw [h]; decide)

theorem step_resumed (B : Books V) (on : JobId → Bool) (accepted : List (Placed V)) (e : Placed V) :
    step (fun flowId => (B flowId).resumed (on flowId), accepted) e =
      (fun flowId => ((step (B, accepted) e).1 flowId).resumed (on flowId),
        (step (B, accepted) e).2) := by
  cases hpends : (B e.1.flowId).pends e.1.childKey with
  | false =>
    rw [step_of_not (B, accepted) e hpends,
      step_of_not (fun flowId => (B flowId).resumed (on flowId), accepted) e hpends]
  | true =>
    rw [step_of_pends (B, accepted) e hpends,
      step_of_pends (fun flowId => (B flowId).resumed (on flowId), accepted) e hpends,
      Prod.mk.injEq]
    refine ⟨funext fun flowId => ?_, rfl⟩
    dsimp only
    by_cases hflow : flowId = e.1.flowId
    · subst hflow
      rw [Function.update_self, Function.update_self, FlowBook.apply_resumed]
    · rw [Function.update_of_ne hflow, Function.update_of_ne hflow]

/-- Resuming parents in between changes no row, so the same reports apply. -/
theorem recordAll_resumed (B : Books V) (on : JobId → Bool) (es : List (Placed V)) :
    recordAll (fun flowId => (B flowId).resumed (on flowId)) es =
      (fun flowId => ((B.recordAll es).1 flowId).resumed (on flowId), (B.recordAll es).2) := by
  induction es using List.reverseRecOn with
  | nil => rfl
  | append_singleton es e ih => rw [recordAll_snoc, recordAll_snoc, ih, step_resumed]

/-- A flow whose parent is slow stays so, and untouched flows have no verdict. -/
theorem Slow.of_accepted {reports : List (FlowChildReport V)} (h : B.Slow reports) (flowId : JobId) :
    ofFlow (B.recorded reports).2 flowId = [] ∨
      ∀ p, ((B.recorded reports).1 flowId).parent = some p → ∀ flow, p.flow = some flow →
        flow.failFast = false := by
  cases hempty : ofFlow (B.recorded reports).2 flowId with
  | nil => exact .inl rfl
  | cons e es =>
    right
    obtain ⟨hmem, rfl⟩ := mem_ofFlow.mp (hempty ▸ List.mem_cons_self : e ∈ ofFlow _ flowId)
    have hreport : e.1 ∈ reports :=
      List.fst_mem_of_mem_zipIdx ((accepted_sublist B reports.zipIdx).subset hmem)
    intro p hp flow hflow
    obtain ⟨p₀, flow₀, hp₀, hflow₀, hfast⟩ := recorded_manifest hp hflow
    rw [← hfast]
    exact h e.1 hreport p₀ hp₀ flow₀ hflow₀

/-- Whether the batch resumes the parent. -/
def resumes (r : Recording V) (flowId : JobId) : Bool := (r.1 flowId).resumes (ofFlow r.2 flowId)

theorem verdict_of_slow {reports : List (FlowChildReport V)} (h : B.Slow reports) (flowId : JobId) :
    if resumes (B.recorded reports) flowId then
      ∃ last ∈ ofFlow (B.recorded reports).2 flowId,
        verdict (B.recorded reports) flowId = .resumes last.2
    else verdict (B.recorded reports) flowId = .stays := by
  rcases h.of_accepted flowId with hempty | hslow
  · have hnone : resumes (B.recorded reports) flowId = false := by
      rw [resumes, hempty]
      rfl
    rw [hnone, verdict, hempty, FlowBook.verdict]
    cases ((B.recorded reports).1 flowId).parent with
    | none => rfl
    | some p => simp [ParentBook.verdict]
  · exact FlowBook.verdict_of_slow _ hslow

theorem after_of_slow {reports : List (FlowChildReport V)} (h : B.Slow reports) :
    B.after reports = fun flowId =>
      ((B.recorded reports).1 flowId).resumed (resumes (B.recorded reports) flowId) := by
  funext flowId
  have hverdict := verdict_of_slow h flowId
  rw [after]
  cases hresumes : resumes (B.recorded reports) flowId with
  | true =>
    rw [hresumes] at hverdict
    obtain ⟨last, _, heq⟩ := hverdict
    rw [heq]
    rfl
  | false =>
    rw [hresumes] at hverdict
    rw [hverdict, FlowBook.resumed_false]
    rfl

/-- How often the answer says that the parent settled. -/
def settles (B : Books V) (reports : List (FlowChildReport V)) (flowId : JobId) : ℕ :=
  (reports.zip (B.answer reports)).countP fun e => decide (e.1.flowId = flowId) && e.2.2

theorem zip_answer (B : Books V) (reports : List (FlowChildReport V)) :
    reports.zip (B.answer reports) = reports.zipIdx.map fun e =>
      (e.1, decide (e.2 ∈ (B.recorded reports).2.map Prod.snd),
        decide ((verdict (B.recorded reports) e.1.flowId).index = some e.2)) := by
  rw [answer]
  conv_lhs =>
    arg 1
    rw [← List.zipIdx_map_fst 0 reports]
  rw [List.zip_map']

/-- Only an applied report decides, so a parent that resumes is answered for once. -/
theorem settles_of_slow {reports : List (FlowChildReport V)} (h : B.Slow reports) (flowId : JobId) :
    B.settles reports flowId = if resumes (B.recorded reports) flowId then 1 else 0 := by
  rw [settles, zip_answer, List.countP_map]
  have hverdict := verdict_of_slow h flowId
  cases hresumes : resumes (B.recorded reports) flowId with
  | false =>
    rw [hresumes] at hverdict
    rw [if_neg (by simp), List.countP_eq_zero]
    intro e _
    by_cases hflow : e.1.flowId = flowId
    · simp [hflow, show verdict (B.recorded reports) flowId = .stays from hverdict, Verdict.index]
    · simp [hflow]
  | true =>
    rw [hresumes] at hverdict
    obtain ⟨last, hlast, heq⟩ := hverdict
    obtain ⟨hmem, hflow⟩ := mem_ofFlow.mp hlast
    have hin := (accepted_sublist B reports.zipIdx).subset hmem
    have hone : reports.zipIdx.countP (fun e => decide (e.2 = last.2)) = 1 := by
      have hcount := List.count_eq_one_of_mem (List.nodup_range' (n := reports.length) (s := 0))
        (a := last.2) (by simpa using List.snd_lt_of_mem_zipIdx hin)
      rw [← List.zipIdx_map_snd 0 reports, List.count, List.countP_map] at hcount
      exact hcount
    rw [if_pos rfl, ← hone]
    apply List.countP_congr
    intro e he
    simp only [Function.comp_apply, Bool.and_eq_true, decide_eq_true_eq]
    constructor
    · rintro ⟨hflow', hindex⟩
      rw [hflow', heq] at hindex
      exact (Option.some.inj hindex).symm
    · intro hindex
      have hsame : e = last := by
        rw [List.mem_zipIdx_iff_getElem?] at he hin
        rw [hindex, hin] at he
        exact Prod.ext (Option.some.inj he).symm hindex
      rw [hsame, hflow, heq]
      exact ⟨rfl, rfl⟩

/-! ## Cutting a batch -/

theorem Slow.append {xs ys : List (FlowChildReport V)} (h : B.Slow (xs ++ ys)) :
    B.Slow xs ∧ (B.after xs).Slow ys := by
  have hxs : B.Slow xs := fun report hreport => h report (List.mem_append_left ys hreport)
  refine ⟨hxs, fun report hreport p hp flow hflow => ?_⟩
  rw [after_of_slow hxs] at hp
  simp only [FlowBook.resumed] at hp
  obtain ⟨p₁, hp₁, rfl⟩ := Option.map_eq_some_iff.mp hp
  obtain ⟨p₀, flow₀, hp₀, hflow₀, hfast⟩ := recorded_manifest hp₁ hflow
  rw [← hfast]
  exact h report (List.mem_append_right xs hreport) p₀ hp₀ flow₀ hflow₀

theorem recorded_after {xs : List (FlowChildReport V)} (h : B.Slow xs)
    (ys : List (FlowChildReport V)) :
    (B.after xs).recorded ys =
      (fun flowId => (((B.recorded xs).1.recorded ys).1 flowId).resumed
          (resumes (B.recorded xs) flowId),
        ((B.recorded xs).1.recorded ys).2) := by
  rw [after_of_slow h]
  exact recordAll_resumed _ _ _

/-- The parent resumes in one of the parts, once, when it resumes in the whole. -/
theorem resumes_append {xs : List (FlowChildReport V)} (h : B.Slow xs)
    (ys : List (FlowChildReport V)) (flowId : JobId) :
    resumes (B.recorded (xs ++ ys)) flowId =
        (resumes (B.recorded xs) flowId || resumes ((B.after xs).recorded ys) flowId) ∧
      ¬(resumes (B.recorded xs) flowId = true ∧
        resumes ((B.after xs).recorded ys) flowId = true) := by
  have happend := FlowBook.resumes_append ((B.recorded xs).1 flowId)
    (ofFlow (B.recorded xs).2 flowId) (ofFlow ((B.recorded xs).1.recorded ys).2 flowId)
  have hbook := recordAll_books (B.recorded xs).1 ys.zipIdx flowId
  rw [← recorded] at hbook
  rw [← hbook] at happend
  have hwhole : resumes (B.recorded (xs ++ ys)) flowId =
      (((B.recorded xs).1.recorded ys).1 flowId).resumes
        (ofFlow (B.recorded xs).2 flowId ++ ofFlow ((B.recorded xs).1.recorded ys).2 flowId) := by
    rw [resumes, recorded_append, ofFlow_append, ofFlow_map_shift]
    dsimp only
    generalize ofFlow (B.recorded xs).2 flowId = as
    generalize ofFlow ((B.recorded xs).1.recorded ys).2 flowId = as'
    cases as <;> cases as' <;> rfl
  have hsecond : resumes ((B.after xs).recorded ys) flowId =
      ((((B.recorded xs).1.recorded ys).1 flowId).resumed (resumes (B.recorded xs) flowId)).resumes
        (ofFlow ((B.recorded xs).1.recorded ys).2 flowId) := by
    rw [recorded_after h]
    rfl
  rw [hwhole, hsecond]
  exact happend

theorem after_append {xs ys : List (FlowChildReport V)} (h : B.Slow (xs ++ ys)) :
    B.after (xs ++ ys) = (B.after xs).after ys := by
  obtain ⟨hxs, hys⟩ := h.append
  rw [after_of_slow h, after_of_slow hys]
  funext flowId
  rw [(resumes_append hxs ys flowId).1, ← FlowBook.resumed_resumed, recorded_append, recorded_after hxs]

theorem settles_append {xs ys : List (FlowChildReport V)} (h : B.Slow (xs ++ ys)) (flowId : JobId) :
    B.settles (xs ++ ys) flowId = B.settles xs flowId + (B.after xs).settles ys flowId := by
  obtain ⟨hxs, hys⟩ := h.append
  obtain ⟨hor, hnot⟩ := resumes_append hxs ys flowId
  rw [settles_of_slow h, settles_of_slow hxs, settles_of_slow hys, hor]
  cases hfirst : resumes (B.recorded xs) flowId <;>
    cases hsecond : resumes ((B.after xs).recorded ys) flowId <;> simp_all

/-- Which reports apply. -/
def applied (B : Books V) (reports : List (FlowChildReport V)) : List Bool :=
  (B.answer reports).map Prod.fst

theorem applied_eq (B : Books V) (reports : List (FlowChildReport V)) :
    B.applied reports =
      reports.zipIdx.map fun e => decide (e.2 ∈ (B.recorded reports).2.map Prod.snd) := by
  rw [applied, answer, List.map_map]
  rfl

theorem applied_append {xs ys : List (FlowChildReport V)} (h : B.Slow xs) :
    B.applied (xs ++ ys) = B.applied xs ++ (B.after xs).applied ys := by
  have hlt : ∀ i ∈ (B.recorded xs).2.map Prod.snd, i < xs.length := by
    intro i hi
    obtain ⟨e, he, rfl⟩ := List.mem_map.mp hi
    simpa using List.snd_lt_of_mem_zipIdx ((accepted_sublist B xs.zipIdx).subset he)
  rw [applied_eq, applied_eq, applied_eq, recorded_append, recorded_after h, List.zipIdx_append,
    List.map_append, Nat.zero_add, zipIdx_shift ys xs.length, List.map_map]
  simp only [List.map_append, List.map_map, List.mem_append]
  congr 1
  · apply List.map_congr_left
    intro e he
    have he := List.snd_lt_of_mem_zipIdx he
    rw [decide_eq_decide]
    refine or_iff_left fun hmem => ?_
    obtain ⟨e', _, heq⟩ := List.mem_map.mp hmem
    simp only [Function.comp_apply] at heq
    omega
  · apply List.map_congr_left
    intro e _
    simp only [Function.comp_apply, decide_eq_decide]
    constructor
    · rintro (hmem | hmem)
      · have hbound := hlt _ hmem
        omega
      · obtain ⟨e', he', heq⟩ := List.mem_map.mp hmem
        exact List.mem_map.mpr ⟨e', he', Nat.add_right_cancel heq⟩
    · intro hmem
      obtain ⟨e', he', heq⟩ := List.mem_map.mp hmem
      exact .inr (List.mem_map.mpr ⟨e', he', by simp [heq]⟩)

end Books

/-! ## Reordering a batch -/

namespace FlowBook

theorem pends_apply (b : FlowBook V) (report : FlowChildReport V) (key : String) :
    (b.apply report).pends key = (b.pends key && decide (report.childKey ≠ key)) := by
  by_cases hkey : report.childKey = key
  · subst hkey
    simp [pends, apply, reportedRow, toChildStatus_ne_pending]
  · simp [pends, apply, Function.update_of_ne (Ne.symm hkey), hkey]

/-- A row takes one report. -/
theorem pends_applyAll (b : FlowBook V) (es : List (Placed V)) (key : String) :
    (b.applyAll es).pends key = (b.pends key && es.all fun e => decide (e.1.childKey ≠ key)) := by
  induction es generalizing b with
  | nil => simp [applyAll]
  | cons e es ih =>
    rw [applyAll, List.foldl_cons, ← applyAll, ih, pends_apply, List.all_cons, Bool.and_assoc]

theorem apply_comm (b : FlowBook V) {report report' : FlowChildReport V}
    (h : report.childKey ≠ report'.childKey) :
    (b.apply report).apply report' = (b.apply report').apply report := by
  have hcount : ∀ flow : FlowState, (flow.counting report.outcome).counting report'.outcome =
      (flow.counting report'.outcome).counting report.outcome := by
    intro flow
    simp only [FlowState.counting, FlowState.mk.injEq, true_and]
    omega
  have hparent : ∀ p : ParentBook V, (p.counting report.outcome).counting report'.outcome =
      (p.counting report'.outcome).counting report.outcome := by
    intro p
    simp [ParentBook.counting, Option.map_map, Function.comp_def, hcount]
  simp only [apply, FlowBook.mk.injEq, Option.map_map]
  exact ⟨Function.update_comm h _ _ _, trivial, by
    simp only [Function.comp_def, hparent]⟩

theorem applyAll_eq (b : FlowBook V) (es : List (Placed V)) :
    b.applyAll es = (es.map Prod.fst).foldl apply b := by
  rw [applyAll, List.foldl_map]

/-- Reports on different rows may be applied in any order. -/
theorem foldl_apply_perm (b : FlowBook V) {reports reports' : List (FlowChildReport V)}
    (h : reports.Perm reports') (hkeys : (reports.map (·.childKey)).Nodup) :
    reports.foldl apply b = reports'.foldl apply b := by
  refine h.foldl_eq' (fun x hx y hy b => ?_) b
  by_cases hkey : x.childKey = y.childKey
  · rw [List.inj_on_of_nodup_map hkeys hx hy hkey]
  · exact b.apply_comm hkey

end FlowBook

/-- The row a report is for. -/
def FlowChildReport.target (report : FlowChildReport V) : JobId × String :=
  (report.flowId, report.childKey)

namespace Books

variable {B : Books V}

/-- After a report for it, applied or not, a row is not pending. -/
theorem pends_recordAll (B : Books V) {es : List (Placed V)} {e : Placed V} (h : e ∈ es) :
    ((B.recordAll es).1 e.1.flowId).pends e.1.childKey = false := by
  induction es using List.reverseRecOn with
  | nil => cases h
  | append_singleton es last ih =>
    rw [recordAll_snoc]
    cases hpends : ((B.recordAll es).1 last.1.flowId).pends last.1.childKey with
    | true =>
      rw [step_of_pends _ last hpends]
      dsimp only
      by_cases hflow : e.1.flowId = last.1.flowId
      · rw [hflow, Function.update_self, FlowBook.pends_apply]
        rcases List.mem_append.mp h with he | he
        · rw [← hflow, ih he, Bool.false_and]
        · rw [List.mem_singleton.mp he]
          simp
      · rw [Function.update_of_ne hflow]
        rcases List.mem_append.mp h with he | he
        · exact ih he
        · exact absurd (congrArg (·.1.flowId) (List.mem_singleton.mp he)) hflow
    | false =>
      rw [step_of_not _ last hpends]
      rcases List.mem_append.mp h with he | he
      · exact ih he
      · rw [List.mem_singleton.mp he]
        exact hpends

/-- A row is still pending when it was so at first and no report has been for it. -/
theorem pends_recordAll_iff (B : Books V) (es : List (Placed V)) (e : Placed V) :
    ((B.recordAll es).1 e.1.flowId).pends e.1.childKey = true ↔
      (B e.1.flowId).pends e.1.childKey = true ∧ ∀ e' ∈ es, e'.1.target ≠ e.1.target := by
  have happlied := congrArg (·.pends e.1.childKey) (recordAll_books B es e.1.flowId)
  simp only [FlowBook.pends_applyAll] at happlied
  constructor
  · intro hpends
    rw [happlied, Bool.and_eq_true] at hpends
    refine ⟨hpends.1, fun e' he' htarget => ?_⟩
    have hdone := pends_recordAll B he'
    obtain ⟨hflow, hkey⟩ := Prod.mk.inj htarget
    rw [hflow, hkey, happlied, hpends.1, hpends.2] at hdone
    cases hdone
  · rintro ⟨hpends, hnew⟩
    rw [happlied, hpends, Bool.true_and, List.all_eq_true]
    intro e' he'
    obtain ⟨hmem, hflow⟩ := mem_ofFlow.mp he'
    rw [decide_eq_true_eq]
    exact fun hkey => hnew e' ((accepted_sublist B es).subset hmem) (Prod.ext hflow hkey)

/-- A report applies when its row was pending at first and no report before it is for that row. -/
theorem mem_accepted (B : Books V) {es : List (Placed V)} {e : Placed V} :
    e ∈ (B.recordAll es).2 ↔ ∃ before after, es = before ++ e :: after ∧
      (B e.1.flowId).pends e.1.childKey = true ∧ ∀ e' ∈ before, e'.1.target ≠ e.1.target := by
  induction es using List.reverseRecOn with
  | nil =>
    refine iff_of_false (fun h => by cases h) ?_
    rintro ⟨before, after, heq, -⟩
    exact absurd heq.symm (List.append_ne_nil_of_right_ne_nil _ (List.cons_ne_nil _ _))
  | append_singleton es last ih =>
    have hlast := pends_recordAll_iff B es last
    have hsplit : (∃ before after, es ++ [last] = before ++ e :: after ∧
        (B e.1.flowId).pends e.1.childKey = true ∧ ∀ e' ∈ before, e'.1.target ≠ e.1.target) ↔
        e ∈ (B.recordAll es).2 ∨
          e = last ∧ ((B.recordAll es).1 last.1.flowId).pends last.1.childKey = true := by
      rw [ih, hlast]
      constructor
      · rintro ⟨before, after, heq, hpends, hnew⟩
        rcases List.eq_nil_or_concat after with rfl | ⟨after, x, rfl⟩
        · obtain ⟨rfl, hcons⟩ := List.append_inj' heq rfl
          obtain rfl := List.head_eq_of_cons_eq hcons
          exact .inr ⟨rfl, hpends, hnew⟩
        · rw [List.concat_eq_append, ← List.cons_append, ← List.append_assoc] at heq
          exact .inl ⟨before, after, (List.append_inj' heq rfl).1, hpends, hnew⟩
      · rintro (⟨before, after, rfl, h⟩ | ⟨rfl, h⟩)
        · exact ⟨before, after ++ [last], by rw [List.append_assoc, List.cons_append], h⟩
        · exact ⟨es, [], rfl, h⟩
    rw [hsplit, recordAll_snoc]
    cases hpends : ((B.recordAll es).1 last.1.flowId).pends last.1.childKey with
    | true =>
      rw [step_of_pends _ last hpends, List.mem_append, List.mem_singleton]
      simp only [and_true]
    | false =>
      rw [step_of_not _ last hpends]
      simp

/-- A second report for a row does nothing. -/
theorem recordAll_repeat (B : Books V) {es : List (Placed V)} {e e' : Placed V} (h : e' ∈ es)
    (htarget : e'.1.target = e.1.target) : B.recordAll (es ++ [e]) = B.recordAll es := by
  have hpends := pends_recordAll B h
  obtain ⟨hflow, hkey⟩ := Prod.mk.inj htarget
  rw [hflow, hkey] at hpends
  rw [recordAll_snoc, step_of_not _ e hpends]

/-- Reports on different rows apply when their row was pending from the start. -/
theorem accepted_of_nodup (B : Books V) (es : List (Placed V))
    (h : (es.map (·.1.target)).Nodup) :
    (B.recordAll es).2 = es.filter fun e => (B e.1.flowId).pends e.1.childKey := by
  induction es using List.reverseRecOn with
  | nil => rfl
  | append_singleton es e ih =>
    rw [List.map_append, List.nodup_append] at h
    obtain ⟨hes, _, hnew⟩ := h
    have hpends : ((B.recordAll es).1 e.1.flowId).pends e.1.childKey =
        (B e.1.flowId).pends e.1.childKey := by
      rw [Bool.eq_iff_iff, pends_recordAll_iff, and_iff_left_iff_imp]
      exact fun _ e' he' => hnew _ (List.mem_map_of_mem he') _ (List.mem_singleton.mpr rfl)
    rw [recordAll_snoc, List.filter_append, ← ih hes]
    cases hopen : (B e.1.flowId).pends e.1.childKey with
    | true =>
      rw [step_of_pends _ e (hpends.trans hopen)]
      simp [hopen]
    | false =>
      rw [step_of_not _ e (hpends.trans hopen)]
      simp [hopen]

/-- A batch fails the flow: its parent waits under fail-fast, and a failed report is the first one of
the batch for its row, which is pending. -/
def FailsFast (B : Books V) (reports : List (FlowChildReport V)) (flowId : JobId) : Prop :=
  (∃ p, (B flowId).parent = some p ∧ p.state = .waitingChildren ∧
    ∃ flow, p.flow = some flow ∧ flow.failFast = true) ∧
  ∃ before report after, reports = before ++ report :: after ∧ report.flowId = flowId ∧
    report.outcome = .failed ∧ (B flowId).pends report.childKey = true ∧
    ∀ earlier ∈ before, earlier.target ≠ report.target

/-- The reports that apply, their places apart. -/
theorem mem_recorded (B : Books V) {reports : List (FlowChildReport V)}
    {report : FlowChildReport V} :
    (∃ i, (report, i) ∈ (B.recorded reports).2) ↔
      ∃ before after, reports = before ++ report :: after ∧
        (B report.flowId).pends report.childKey = true ∧
        ∀ earlier ∈ before, earlier.target ≠ report.target := by
  constructor
  · rintro ⟨i, hin⟩
    obtain ⟨before, after, heq, hpends, hnew⟩ := (mem_accepted B).mp hin
    refine ⟨before.map Prod.fst, after.map Prod.fst, ?_, hpends, fun earlier hearlier => ?_⟩
    · rw [← List.zipIdx_map_fst 0 reports, heq, List.map_append, List.map_cons]
    · obtain ⟨e', he', rfl⟩ := List.mem_map.mp hearlier
      exact hnew e' he'
  · rintro ⟨before, after, rfl, hpends, hnew⟩
    refine ⟨before.length, (mem_accepted B).mpr
      ⟨before.zipIdx, after.zipIdx (before.length + 1), ?_, hpends, fun e' he' => ?_⟩⟩
    · rw [List.zipIdx_append, List.zipIdx_cons, Nat.zero_add]
    · exact hnew e'.1 (List.fst_mem_of_mem_zipIdx he')

theorem verdict_fails_iff {B : Books V} {reports : List (FlowChildReport V)} {flowId : JobId} :
    (∃ index childKey, verdict (B.recorded reports) flowId = .fails index childKey) ↔
      B.FailsFast reports flowId := by
  have hparent := FlowBook.applyAll_parent (B flowId) (ofFlow (B.recorded reports).2 flowId)
  rw [recorded, ← recordAll_books, ← recorded] at hparent
  have hfailed : (∃ e ∈ ofFlow (B.recorded reports).2 flowId, e.1.outcome = .failed) ↔
      ∃ before report after, reports = before ++ report :: after ∧ report.flowId = flowId ∧
        report.outcome = .failed ∧ (B flowId).pends report.childKey = true ∧
        ∀ earlier ∈ before, earlier.target ≠ report.target := by
    constructor
    · rintro ⟨⟨report, i⟩, he, hfailed⟩
      obtain ⟨hin, rfl⟩ := mem_ofFlow.mp he
      obtain ⟨before, after, heq, hpends, hnew⟩ := (mem_recorded B).mp ⟨i, hin⟩
      exact ⟨before, report, after, heq, rfl, hfailed, hpends, hnew⟩
    · rintro ⟨before, report, after, heq, rfl, hfailed, hpends, hnew⟩
      obtain ⟨i, hin⟩ := (mem_recorded B).mpr ⟨before, after, heq, hpends, hnew⟩
      exact ⟨(report, i), mem_ofFlow.mpr ⟨hin, rfl⟩, hfailed⟩
  rw [FailsFast, verdict, FlowBook.verdict, hparent, ← hfailed]
  cases hp : (B flowId).parent with
  | none => simp
  | some p =>
    rw [Option.map_some, Option.map_some, Option.getD_some, ParentBook.verdict_fails_iff,
      ParentBook.foldl_counting]
    simp only [Option.some.injEq, exists_eq_left', and_assoc]
    refine and_congr_right fun _ => and_congr_left fun _ => ?_
    cases p.flow with
    | none => simp
    | some flow => simp [FlowState.foldl_counting]

/-- The reports that apply, place apart. -/
theorem accepted_reports (B : Books V) {reports : List (FlowChildReport V)}
    (h : (reports.map (·.target)).Nodup) (flowId : JobId) :
    (ofFlow (B.recorded reports).2 flowId).map Prod.fst =
      reports.filter fun r => decide (r.flowId = flowId) && (B r.flowId).pends r.childKey := by
  have hzip : (reports.zipIdx.map (·.1.target)).Nodup := by
    rw [← Function.comp_def (f := fun r => FlowChildReport.target r), ← List.map_map,
      List.zipIdx_map_fst]
    exact h
  rw [recorded, accepted_of_nodup B _ hzip, ofFlow, List.filter_filter]
  conv_rhs => rw [← List.zipIdx_map_fst 0 reports, List.filter_map]
  rfl

theorem applied_of_nodup (B : Books V) {reports : List (FlowChildReport V)}
    (h : (reports.map (·.target)).Nodup) :
    B.applied reports = reports.map fun r => (B r.flowId).pends r.childKey := by
  have hzip : (reports.zipIdx.map (·.1.target)).Nodup := by
    rw [← Function.comp_def (f := fun r => FlowChildReport.target r), ← List.map_map,
      List.zipIdx_map_fst]
    exact h
  rw [applied_eq]
  conv_rhs => rw [← List.zipIdx_map_fst 0 reports, List.map_map]
  apply List.map_congr_left
  intro e he
  rw [Bool.eq_iff_iff, decide_eq_true_eq, recorded, accepted_of_nodup B _ hzip, List.mem_map,
    Function.comp_apply]
  constructor
  · rintro ⟨e', he', heq⟩
    obtain ⟨hmem, hpends⟩ := List.mem_filter.mp he'
    rw [List.mem_zipIdx_iff_getElem?] at he hmem
    rw [heq, he] at hmem
    rw [Option.some.inj hmem]
    exact hpends
  · exact fun hpends => ⟨e, List.mem_filter.mpr ⟨he, hpends⟩, rfl⟩

section Perm

variable {xs ys : List (FlowChildReport V)} (h : xs.Perm ys) (hkeys : (xs.map (·.target)).Nodup)

include h in
theorem Slow.perm (hslow : B.Slow xs) : B.Slow ys := fun report hreport =>
  hslow report (h.mem_iff.mpr hreport)

include h hkeys

theorem accepted_perm (B : Books V) (flowId : JobId) :
    ((ofFlow (B.recorded xs).2 flowId).map Prod.fst).Perm
      ((ofFlow (B.recorded ys).2 flowId).map Prod.fst) := by
  rw [accepted_reports B hkeys, accepted_reports B ((h.map _).nodup_iff.mp hkeys)]
  exact h.filter _

theorem recorded_perm (B : Books V) (flowId : JobId) :
    (B.recorded xs).1 flowId = (B.recorded ys).1 flowId := by
  rw [recorded, recorded, recordAll_books, recordAll_books, FlowBook.applyAll_eq,
    FlowBook.applyAll_eq]
  apply FlowBook.foldl_apply_perm _ (accepted_perm h hkeys B flowId)
  have hflow : ∀ r ∈ (ofFlow (B.recorded xs).2 flowId).map Prod.fst,
      r.target = (flowId, r.childKey) := by
    intro r hr
    obtain ⟨e, he, rfl⟩ := List.mem_map.mp hr
    exact Prod.ext (mem_ofFlow.mp he).2 rfl
  rw [accepted_reports B hkeys] at hflow ⊢
  refine List.Nodup.of_map (fun key => (flowId, key)) ?_
  have htargets := List.map_congr_left hflow
  rw [List.map_map]
  exact htargets ▸ hkeys.sublist (List.filter_sublist.map _)

theorem resumes_perm (B : Books V) (flowId : JobId) :
    resumes (B.recorded xs) flowId = resumes (B.recorded ys) flowId := by
  have hlength := (accepted_perm h hkeys B flowId).length_eq
  rw [List.length_map, List.length_map] at hlength
  have hempty : (ofFlow (B.recorded xs).2 flowId).isEmpty =
      (ofFlow (B.recorded ys).2 flowId).isEmpty := by
    rw [Bool.eq_iff_iff, List.isEmpty_iff_length_eq_zero, List.isEmpty_iff_length_eq_zero, hlength]
  rw [resumes, resumes, recorded_perm h hkeys B flowId, FlowBook.resumes, FlowBook.resumes, hempty]

theorem after_perm (hslow : B.Slow xs) : B.after xs = B.after ys := by
  rw [after_of_slow hslow, after_of_slow (hslow.perm h)]
  funext flowId
  rw [recorded_perm h hkeys B flowId, resumes_perm h hkeys B flowId]

theorem settles_perm (hslow : B.Slow xs) (flowId : JobId) :
    B.settles xs flowId = B.settles ys flowId := by
  rw [settles_of_slow hslow, settles_of_slow (hslow.perm h), resumes_perm h hkeys B flowId]

/-- Each report keeps its flag. -/
theorem applied_perm (B : Books V) : (xs.zip (B.applied xs)).Perm (ys.zip (B.applied ys)) := by
  have hzip : ∀ {reports : List (FlowChildReport V)}, (reports.map (·.target)).Nodup →
      reports.zip (B.applied reports) =
        reports.map fun r => (r, (B r.flowId).pends r.childKey) := by
    intro reports hnodup
    rw [applied_of_nodup B hnodup]
    conv_lhs =>
      arg 1
      rw [← List.map_id reports]
    rw [List.zip_map']
    rfl
  rw [hzip hkeys, hzip ((h.map _).nodup_iff.mp hkeys)]
  exact h.map _

end Perm

end Books

end EffectMq
