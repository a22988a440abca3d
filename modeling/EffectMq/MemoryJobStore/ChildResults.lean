import EffectMq.FlowResults
import EffectMq.MemoryJobStore.Listing
import EffectMq.MemoryJobStore.Owed

/-! # Collecting the results of a flow

`listChildResults` of `MemoryJobStore.ts` under the walks of `Flow.ts`: `all` and `stream` see every
settled row once, and the buckets are as large as the counters say.
-/

namespace EffectMq.Memory
set_option autoImplicit false
set_option maxHeartbeats 250000

open Transition

variable {P V A C : Type}

/-! ## The operation -/

def rowsOf (s : Store V) (flowId : JobId) : List (MemFlowChild V) :=
  ((s.flowChildren.get? flowId).map (·.values)).getD []

/-- The comparator of the sort. -/
def KeyNotAfter (a b : MemFlowChild V) : Prop := compareIds a.childKey b.childKey ≤ 0

instance : DecidableRel (KeyNotAfter : MemFlowChild V → MemFlowChild V → Prop) := fun _ _ =>
  inferInstanceAs (Decidable (_ ≤ _))

def sortedRows (s : Store V) (flowId : JobId) : List (MemFlowChild V) :=
  (rowsOf s flowId).insertionSort KeyNotAfter

def childRecord (row : MemFlowChild V) : FlowChildRecord V where
  flowId := row.flowId
  childKey := row.childKey
  name := row.spec.name
  storeKey := row.storeKey
  childJobId := row.spec.id
  status := row.status
  exit := row.exit
  failedReason := row.failedReason
  cascaded := row.cascaded

/-- `limit ?? 1000`, and at least one. -/
def childPageSize (limit : Option ℤ) : ℕ := (max 1 (limit.getD 1000)).toNat

def pastKey (cursor : Option String) (row : MemFlowChild V) : Bool :=
  cursor.all fun key => decide (jsLt key row.childKey)

def listChildResults (s : Store V) (flowId : JobId) (limit : Option ℤ) (cursor : Option String) :
    ChildPage V :=
  let rows := (sortedRows s flowId).filter (pastKey cursor)
  let page := rows.take (childPageSize limit)
  { items := page.map childRecord
    cursor := if childPageSize limit < rows.length then page.getLast?.map (·.childKey) else none }

/-- The counters that `childResults` reads; a job that has not fanned out has none. -/
def flowStateOf (s : Store V) (failFast : Bool) (flowId : JobId) : FlowState :=
  ((s.jobs.get? flowId).bind (·.flow)).getD ⟨failFast, 0, 0, 0, 0⟩

/-! ## It is keyset pagination -/

instance : IsStrictOrder String jsLt where
  irrefl := jsLt_irrefl
  trans _ _ _ := jsLt_trans

theorem keyNotAfter_iff {a b : MemFlowChild V} :
    KeyNotAfter a b ↔ jsLt a.childKey b.childKey ∨ a.childKey = b.childKey :=
  compareIds_nonpos _ _

instance : Std.Total (KeyNotAfter : MemFlowChild V → MemFlowChild V → Prop) where
  total a b := by
    rw [keyNotAfter_iff, keyNotAfter_iff]
    rcases jsLt_trichotomy a.childKey b.childKey with h | h | h
    · exact .inl (.inl h)
    · exact .inl (.inr h)
    · exact .inr (.inl h)

instance : IsTrans (MemFlowChild V) KeyNotAfter where
  trans a b c h h' := by
    rw [keyNotAfter_iff] at h h' ⊢
    rcases h with h | h
    · rcases h' with h' | h'
      · exact .inl (jsLt_trans h h')
      · exact .inl (h' ▸ h)
    · rw [h]
      exact h'

theorem mem_rowsOf {s : Store V} (hk : s.toCore.RowsKeyed) {flowId : JobId} {row : MemFlowChild V} :
    row ∈ rowsOf s flowId ↔ s.row? flowId row.childKey = some row := by
  rw [Core.row?, rowsOf]
  cases hrows : s.flowChildren.get? flowId with
  | none => simp
  | some rows =>
    change row ∈ rows.values ↔ rows.get? row.childKey = some row
    rw [JsMap.mem_values]
    constructor
    · rintro ⟨key, hrow⟩
      rwa [(hk flowId rows key row hrows hrow).2]
    · exact fun hrow => ⟨_, hrow⟩

theorem rowsOf_keys_nodup {s : Store V} (hk : s.toCore.RowsKeyed) (flowId : JobId) :
    ((rowsOf s flowId).map (·.childKey)).Nodup := by
  rw [rowsOf]
  cases hrows : s.flowChildren.get? flowId with
  | none => exact List.nodup_nil
  | some rows =>
    exact JsMap.nodup_values_map fun key row hrow => (hk flowId rows key row hrows hrow).2

theorem sortedRows_sorted {s : Store V} (hk : s.toCore.RowsKeyed) (flowId : JobId) :
    (sortedRows s flowId).Pairwise fun a b => jsLt a.childKey b.childKey := by
  have hperm := List.perm_insertionSort KeyNotAfter (rowsOf s flowId)
  have hnodup : ((sortedRows s flowId).map (·.childKey)).Nodup := by
    rw [sortedRows, (hperm.map _).nodup_iff]
    exact rowsOf_keys_nodup hk flowId
  have hsorted := List.pairwise_insertionSort KeyNotAfter (rowsOf s flowId)
  refine (hsorted.and (List.pairwise_map.mp hnodup)).imp ?_
  rintro a b ⟨hle, hne⟩
  exact (keyNotAfter_iff.mp hle).resolve_right hne

theorem childPageSize_pos (limit : Option ℤ) : 0 < childPageSize limit := by
  unfold childPageSize
  omega

theorem behind_childRecord (s : Store V) (flowId : JobId) (cursor : Option String) :
    Paging.behind jsLt (·.childKey) cursor ((sortedRows s flowId).map childRecord) =
      ((sortedRows s flowId).filter (pastKey cursor)).map childRecord := by
  rw [Paging.behind, List.filter_map]
  congr 1
  apply List.filter_congr
  intro row _
  rw [Function.comp_apply, pastKey]
  cases cursor with
  | none =>
    rw [Option.all_none]
    exact decide_eq_true fun _ h => by cases h
  | some key =>
    rw [Option.all_some, decide_eq_decide]
    exact ⟨fun h => h key rfl, fun h k hk => by cases hk; exact h⟩

theorem listChildResults_serves (s : Store V) (flowId : JobId) (limit : Option ℤ) :
    ServesRows jsLt (childPageSize limit) ((sortedRows s flowId).map childRecord)
      (listChildResults s flowId limit) := by
  constructor
  · intro cursor
    rw [Paging.page, behind_childRecord, ← List.map_take]
    rfl
  · intro cursor
    have hpos := childPageSize_pos limit
    simp only [listChildResults, Paging.page, behind_childRecord, List.length_map]
    split
    next hlt =>
      rw [List.getLast?_take, if_neg hpos.ne', List.getElem?_map, Option.map_map,
        List.getElem?_eq_getElem (by omega)]
      rfl
    next => rfl

/-! ## Every child once -/

/-- What the accessors deliver over the rows of a flow. -/
structure SeesEachOnce (flow : FlowDefinition P V)
    (exitSchema : MemberJob P V → V → Except String (Exit A C)) (s : Store V) (flowId : JobId)
    (stream : List (SettledEntry A C)) (all : Collected A C) (counts : FlowState) : Prop where
  ordered : stream.Pairwise fun a b => jsLt a.key b.key
  /-- An entry stands for a row that is not pending, with its outcome. -/
  told : ∀ entry ∈ stream, ∃ row, s.row? flowId entry.key = some row ∧
    row.status = entry.outcome.toChildStatus ∧ Tells flow exitSchema (childRecord row) entry
  every : ∀ key row, s.row? flowId key = some row → row.status ≠ .pending →
    ∃ entry ∈ stream, entry.key = key ∧ Tells flow exitSchema (childRecord row) entry
  once : (stream.map (·.key)).Nodup
  /-- The buckets are the entries of the stream by outcome, in its order. -/
  buckets : all = Collected.of stream
  completed : all.completed.length = counts.completed
  failed : all.failed.length = counts.failed
  cancelled : all.cancelled.length = counts.cancelled
  pending : stream.length + counts.pending = (rowsOf s flowId).length

theorem settledEntry_outcome {flow : FlowDefinition P V}
    {exitSchema : MemberJob P V → V → Except String (Exit A C)} {record : FlowChildRecord V}
    (h : Written flow exitSchema record) (state : TerminalState) :
    (settledEntry flow exitSchema record).any (fun entry => decide (entry.outcome = state)) =
      decide (record.status = state.toChildStatus) := by
  by_cases hp : record.status = .pending
  · rcases decodeRow_written h with ⟨-, hnone⟩ | ⟨entry, -, htells⟩
    · rw [settledEntry, hnone, hp]
      cases state <;> rfl
    · rw [htells.outcome] at hp
      cases hentry : entry.outcome <;> rw [hentry] at hp <;> cases hp
  · obtain ⟨entry, hentry, htells⟩ := settledEntry_of_settled h hp
    rw [hentry, Option.any_some, htells.outcome, decide_eq_decide]
    cases entry.outcome <;> cases state <;> simp [TerminalState.toChildStatus]

theorem length_collected (entries : List (SettledEntry A C)) :
    (Collected.of entries).completed.length + (Collected.of entries).failed.length +
      (Collected.of entries).cancelled.length = entries.length := by
  induction entries with
  | nil => rfl
  | cons entry entries ih =>
    simp only [Collected.of, List.filter_cons, List.length_cons] at ih ⊢
    cases entry.outcome <;> simp <;> omega

/-- The rows with an outcome are as many as the counter of the flow. -/
theorem countP_rowsOf {s : Store V} (h : Reachable Initial (NextWhere (Op.Fans DistinctKeys)) s)
    (failFast : Bool) (flowId : JobId) :
    let count := fun status => (rowsOf s flowId).countP fun row => decide (row.status = status)
    count .pending = (flowStateOf s failFast flowId).pending ∧
      count .completed = (flowStateOf s failFast flowId).completed ∧
      count .failed = (flowStateOf s failFast flowId).failed ∧
      count .cancelled = (flowStateOf s failFast flowId).cancelled := by
  have hinv := (reachable_flowInv balanced_accounts h).booked flowId
  unfold flowStateOf
  cases hflow : (s.jobs.get? flowId).bind (·.flow) with
  | some flow =>
    obtain ⟨job, hjob, hflow⟩ := Option.bind_eq_some_iff.mp hflow
    obtain ⟨rows, hrows, hbalanced⟩ := hinv.booked job flow hjob hflow
    have hvalues : rowsOf s flowId = rows.values := by
      change ((s.flowChildren.get? flowId).map _).getD [] = _
      rw [show s.flowChildren.get? flowId = some rows from hrows]
      rfl
    rw [hvalues]
    exact ⟨hbalanced.pending.symm, hbalanced.completed.symm, hbalanced.failed.symm,
      hbalanced.cancelled.symm⟩
  | none =>
    have hrows : s.flowChildren.get? flowId = none := by
      refine Option.eq_none_iff_forall_ne_some.mpr fun rows hrows => ?_
      obtain ⟨job, flow, hjob, hjobFlow⟩ := hinv.owned rows hrows
      rw [show s.jobs.get? flowId = some job from hjob, Option.bind_some, hjobFlow] at hflow
      cases hflow
    have hempty : rowsOf s flowId = [] := by
      rw [rowsOf, hrows]
      rfl
    rw [hempty]
    exact ⟨rfl, rfl, rfl, rfl⟩

theorem length_rowsOf (s : Store V) (flowId : JobId) :
    let count := fun status => (rowsOf s flowId).countP fun row => decide (row.status = status)
    count .pending + count .completed + count .failed + count .cancelled =
      (rowsOf s flowId).length := by
  induction rowsOf s flowId with
  | nil => rfl
  | cons row rows ih =>
    simp only [List.countP_cons, List.length_cons] at ih ⊢
    cases row.status <;> simp <;> omega

section
variable {flow : FlowDefinition P V} {exitSchema : MemberJob P V → V → Except String (Exit A C)}
  {s : Store V} {flowId : JobId}

def streamOf (flow : FlowDefinition P V)
    (exitSchema : MemberJob P V → V → Except String (Exit A C)) (s : Store V) (flowId : JobId) :
    List (SettledEntry A C) :=
  ((sortedRows s flowId).map childRecord).filterMap (settledEntry flow exitSchema)

theorem mem_sortedRows {row : MemFlowChild V} : row ∈ sortedRows s flowId ↔ row ∈ rowsOf s flowId :=
  List.mem_insertionSort _

theorem mem_streamOf (hk : s.toCore.RowsKeyed)
    (hw : ∀ key row, s.row? flowId key = some row → Written flow exitSchema (childRecord row))
    {entry : SettledEntry A C} (hentry : entry ∈ streamOf flow exitSchema s flowId) :
    ∃ row, s.row? flowId entry.key = some row ∧ row.status = entry.outcome.toChildStatus ∧
      Tells flow exitSchema (childRecord row) entry := by
  obtain ⟨record, hrecord, hsome⟩ := List.mem_filterMap.mp hentry
  obtain ⟨row, hrow, rfl⟩ := List.mem_map.mp hrecord
  have hstored := (mem_rowsOf hk).mp (mem_sortedRows.mp hrow)
  have htells := settledEntry_eq_some (hw _ row hstored) hsome
  exact ⟨row, by rwa [htells.key], htells.outcome, htells⟩

theorem row_mem_streamOf (hk : s.toCore.RowsKeyed)
    (hw : ∀ key row, s.row? flowId key = some row → Written flow exitSchema (childRecord row))
    {key : String} {row : MemFlowChild V} (hrow : s.row? flowId key = some row)
    (hp : row.status ≠ .pending) :
    ∃ entry ∈ streamOf flow exitSchema s flowId, entry.key = key ∧
      Tells flow exitSchema (childRecord row) entry := by
  obtain ⟨entry, hentry, htells⟩ := settledEntry_of_settled (hw key row hrow) hp
  have hkey := (hk.row? hrow).2
  have hmem : row ∈ sortedRows s flowId := by
    rw [mem_sortedRows, mem_rowsOf hk, hkey]
    exact hrow
  exact ⟨entry, List.mem_filterMap.mpr ⟨_, List.mem_map_of_mem hmem, hentry⟩,
    htells.key.trans hkey, htells⟩

theorem streamOf_ordered (hk : s.toCore.RowsKeyed)
    (hw : ∀ key row, s.row? flowId key = some row → Written flow exitSchema (childRecord row)) :
    (streamOf flow exitSchema s flowId).Pairwise fun a b => jsLt a.key b.key := by
  rw [streamOf, List.filterMap_map, List.pairwise_filterMap]
  refine (sortedRows_sorted hk flowId).imp_of_mem ?_
  intro a b ha hb hlt entry hentry entry' hentry'
  have htells : ∀ {row entry}, row ∈ sortedRows s flowId →
      settledEntry flow exitSchema (childRecord row) = some entry → entry.key = row.childKey :=
    fun hrow hsome => (settledEntry_eq_some
      (hw _ _ ((mem_rowsOf hk).mp (mem_sortedRows.mp hrow))) hsome).key
  rw [htells ha hentry, htells hb hentry']
  exact hlt

/-- A bucket is as large as the rows with its outcome are many. -/
theorem length_bucket (hk : s.toCore.RowsKeyed)
    (hw : ∀ key row, s.row? flowId key = some row → Written flow exitSchema (childRecord row))
    (state : TerminalState) :
    ((streamOf flow exitSchema s flowId).filter fun entry => decide (entry.outcome = state)).length =
      (rowsOf s flowId).countP fun row => decide (row.status = state.toChildStatus) := by
  rw [← List.countP_eq_length_filter, streamOf, List.filterMap_map, List.countP_filterMap,
    ← (List.perm_insertionSort KeyNotAfter (rowsOf s flowId)).countP_eq]
  apply List.countP_congr
  intro row hrow
  have hwritten := hw _ row ((mem_rowsOf hk).mp (mem_sortedRows.mp hrow))
  have houtcome := settledEntry_outcome hwritten state
  rw [← show (childRecord row).status = row.status from rfl, ← houtcome]
  cases h : settledEntry flow exitSchema (childRecord row) <;> simp [h]

end

/-- Collect sees every child once, and its tallies add up, for every page size. -/
theorem collect_sees_each_once {s : Store V}
    (h : Reachable Initial (NextWhere (Op.Fans DistinctKeys)) s) (flow : FlowDefinition P V)
    (exitSchema : MemberJob P V → V → Except String (Exit A C)) (flowId : JobId) (limit : Option ℤ)
    (hw : ∀ key row, s.row? flowId key = some row → Written flow exitSchema (childRecord row)) :
    let read := fun cursor => decodePage flow exitSchema (listChildResults s flowId limit cursor)
    let pages := max 1 ((rowsOf s flowId).length ⌈/⌉ childPageSize limit)
    ∃ stream all, paginate read pages none = some (stream, none) ∧
      collectAll read pages none {} = some (.ok all) ∧
      SeesEachOnce flow exitSchema s flowId stream all (flowStateOf s flow.failFast flowId) := by
  have hk : s.toCore.RowsKeyed := by
    obtain ⟨start, events, hstart, hrun⟩ := h
    exact (reachable_flowShape ⟨start, events, hstart, hrun.mono fun _ _ _ h => h.2⟩).rowsKeyed
  have hsorted : Paging.Sorted jsLt (·.childKey) ((sortedRows s flowId).map childRecord) :=
    List.pairwise_map.mpr (sortedRows_sorted hk flowId)
  have hwritten : ∀ record ∈ (sortedRows s flowId).map childRecord,
      Written flow exitSchema record := by
    intro record hrecord
    obtain ⟨row, hrow, rfl⟩ := List.mem_map.mp hrecord
    exact hw _ row ((mem_rowsOf hk).mp (mem_sortedRows.mp hrow))
  obtain ⟨hstream, hall⟩ := results_of_serves (listChildResults_serves s flowId limit) hsorted
    (childPageSize_pos limit) hwritten
  rw [List.length_map, sortedRows, List.length_insertionSort] at hstream hall
  obtain ⟨hpending, hcompleted, hfailed, hcancelled⟩ := countP_rowsOf h flow.failFast flowId
  have hordered := streamOf_ordered hk hw
  have hdone := (length_bucket hk hw .completed).trans hcompleted
  have hfail := (length_bucket hk hw .failed).trans hfailed
  have hcancel := (length_bucket hk hw .cancelled).trans hcancelled
  refine ⟨streamOf flow exitSchema s flowId, _, hstream, hall, hordered,
    fun entry => mem_streamOf hk hw, fun key row => row_mem_streamOf hk hw, ?_, rfl,
    hdone, hfail, hcancel, ?_⟩
  · refine List.pairwise_map.mpr (hordered.imp fun {a b} hlt heq => ?_)
    rw [heq] at hlt
    exact jsLt_irrefl _ hlt
  · have hlength := length_collected (streamOf flow exitSchema s flowId)
    have hrows := length_rowsOf s flowId
    simp only [Collected.of, hdone, hfail, hcancel] at hlength
    simp only [hpending, hcompleted, hfailed, hcancelled] at hrows
    omega

/-- A flow of three children, of which one is still pending. -/
def threeChildren : List (Millis × Op (Exit ℕ String)) :=
  let spec := fun key => (⟨key, "kids", .plain key "resize" "q" (.success 0)⟩ : FlowChildSpec _)
  [(0, .enqueue (.plain "p" "flow" "q" (.success 0)) .counter),
    (1, .claim ⟨"q", ["flow"], "t", 30⟩),
    (2, .ack "p" "t" (.fanOut false [spec "b", spec "a", spec "c"])),
    (3, .recordChildResults [⟨"p", "b", .completed, some (.success 7), none⟩,
      ⟨"p", "c", .failed, none, some "stalled"⟩])]

def resizeResults : FlowDefinition Unit (Exit ℕ String) where
  name := "thumbnails"
  parentTag := "flow"
  parentStoreKey := "store/a"
  failFast := false
  byName := JsMap.single "resize"
    ⟨"resize", "images", "kids", ⟨0, 3, none, none, none⟩, .ok, fun _ => .ok (.success 0),
      fun _ => []⟩

theorem collect_sees_each_once_threeChildren :
    ∃ stream all, paginate (fun cursor => decodePage resizeResults (fun _ exit => .ok exit)
        (listChildResults (execs Store.empty threeChildren) "p" (some 1) cursor)) 3 none =
        some (stream, none) ∧
      SeesEachOnce resizeResults (fun _ exit => .ok exit) (execs Store.empty threeChildren) "p" stream
        all ⟨false, 1, 1, 1, 0⟩ := by
  have hreach := reachable_execs (p := Op.Fans DistinctKeys) threeChildren (by
    simp [threeChildren, Op.Fans, DistinctKeys])
  have hk := (reachable_flowShape (reachable_next threeChildren)).rowsKeyed
  have hrows : (rowsOf (execs Store.empty threeChildren) "p").map
      (fun row => (row.spec.name, row.status, row.exit)) =
        [("resize", .completed, some (.success 7)), ("resize", .pending, none),
          ("resize", .failed, none)] := rfl
  obtain ⟨stream, all, hstream, -, hsees⟩ := collect_sees_each_once hreach resizeResults
    (fun _ exit => .ok exit) "p" (some 1) (by
      intro key row hrow
      have hmem : row ∈ rowsOf (execs Store.empty threeChildren) "p" := by
        rw [mem_rowsOf hk, (hk.row? hrow).2]
        exact hrow
      have hin := List.mem_map_of_mem (f := fun row => (row.spec.name, row.status, row.exit)) hmem
      rw [hrows] at hin
      simp only [List.mem_cons, Prod.mk.injEq, List.not_mem_nil, or_false] at hin
      rcases hin with ⟨hname, hstatus, hexit⟩ | ⟨hname, hstatus, hexit⟩ | ⟨hname, hstatus, hexit⟩ <;>
        exact ⟨⟨_, by simp [childRecord, hname, resizeResults]; rfl⟩,
          by simp [childRecord, hstatus, hexit], by simp [childRecord, hstatus, hexit]⟩)
  exact ⟨stream, all, hstream, hsees⟩

end EffectMq.Memory
