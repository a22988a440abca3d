import EffectMq.MemoryJobStore.Manifest

/-! # What the flow sweep hands out

The page of a sweep is the due rows in the order of the store, cut at the limit; a row on the page is
re-armed. Owed cascades have a page of their own and are left as they are.
-/

namespace EffectMq.Memory
set_option autoImplicit false
set_option maxHeartbeats 250000

variable {V : Type}

/-! ## Rows are stored under their own key -/

def RowsKeyed (id : JobId) (v : View V) : Prop :=
  ∀ rows childKey row, v.rows = some rows → rows.get? childKey = some row →
    row.flowId = id ∧ row.childKey = childKey

theorem RowsKeyed.of_modify {id : JobId} {job? job?' : Option (MemJob V)} {rows : Rows V}
    (h : RowsKeyed id ⟨job?, some rows⟩) (childKey : String) {f : MemFlowChild V → MemFlowChild V}
    (hf : ∀ row, rows.get? childKey = some row →
      (f row).flowId = row.flowId ∧ (f row).childKey = row.childKey) :
    RowsKeyed id ⟨job?', some (rows.modify childKey f)⟩ := by
  rintro _ key row ⟨⟩ hrow
  rw [JsMap.get?_modify] at hrow
  split at hrow
  · rename_i hkey
    obtain ⟨row₀, hrow₀, rfl⟩ := Option.map_eq_some_iff.mp hrow
    obtain ⟨hflow, hchild⟩ := h rows childKey row₀ rfl hrow₀
    have hf := hf row₀ hrow₀
    exact ⟨hf.1.trans hflow, hf.2.trans (hchild.trans hkey.symm)⟩
  · exact h rows key row rfl hrow

theorem RowsKeyed.step {id : JobId} {l : Label V} {v v' : View V} (h : ViewStep id l v v')
    (hv : RowsKeyed id v) : RowsKeyed id v' := by
  cases h with
  | same | insert | promote | move | finish | refan => exact hv
  | settle e now rows? =>
    intro rows key row hr hrow
    obtain ⟨rows₀, rfl, rfl⟩ := Option.map_eq_some_iff.mp hr
    rw [JsMap.get?_mapValues] at hrow
    obtain ⟨row₀, hrow₀, rfl⟩ := Option.map_eq_some_iff.mp hrow
    have hkeyed := hv rows₀ key row₀ rfl hrow₀
    unfold markRow
    split <;> exact hkeyed
  | fanOut failFast children now =>
    rintro _ key row ⟨⟩ hrow
    obtain ⟨child, _, hkey, rfl⟩ := newRows_pending hrow
    exact ⟨rfl, hkey⟩
  | @report rows row₀ job? report _ hrow =>
    refine hv.of_modify report.childKey fun row hr => ?_
    cases hrow.symm.trans hr
    exact ⟨rfl, rfl⟩
  | rearm job? rows childKey | cascade job? rows childKey =>
    exact hv.of_modify childKey fun _ _ => ⟨rfl, rfl⟩
  | remove | prune =>
    intro _ _ _ hr
    cases hr

def Core.RowsKeyed (c : Core V) : Prop := ∀ id, Memory.RowsKeyed id (c.view id)

theorem exec_rowsKeyed {s : Store V} (hk : s.toCore.Keyed) (now : Millis) (op : Op V)
    (h : s.toCore.RowsKeyed) : (exec s now op).toCore.RowsKeyed :=
  fun id => (exec_does hk now op).view hk id (fun _ _ _ _ hstep _ hv => hv.step hstep) (h id)

theorem Core.RowsKeyed.row? {c : Core V} (h : c.RowsKeyed) {flowId : JobId} {childKey : String}
    {row : MemFlowChild V} (hrow : c.row? flowId childKey = some row) :
    row.flowId = flowId ∧ row.childKey = childKey := by
  obtain ⟨rows, hr, hrow⟩ := Option.bind_eq_some_iff.mp hrow
  exact h flowId rows childKey row hr hrow

/-- A row is a spec of the persisted manifest. -/
theorem row?_spec {s : Store V} {flowId : JobId} {childKey : String} {row : MemFlowChild V}
    (hrow : s.row? flowId childKey = some row) :
    ∃ children, manifest? s flowId = some children ∧ specOf row ∈ children := by
  obtain ⟨rows, hr, hrow⟩ := Option.bind_eq_some_iff.mp hrow
  refine ⟨specsOf rows, ?_, ?_⟩
  · rw [manifest?, hr, Option.map_some]
  · exact List.mem_map_of_mem (JsMap.mem_values.mpr ⟨childKey, hrow⟩)

/-- A spec of the persisted manifest has its row. -/
theorem spec_row? {s : Store V} (h : s.toCore.RowsKeyed) {flowId : JobId}
    {children : List (FlowChildSpec V)} (hm : manifest? s flowId = some children)
    {child : FlowChildSpec V} (hc : child ∈ children) :
    ∃ row, s.row? flowId child.childKey = some row ∧ specOf row = child := by
  obtain ⟨rows, hr, rfl⟩ := Option.map_eq_some_iff.mp hm
  obtain ⟨row, hmem, rfl⟩ := List.mem_map.mp hc
  obtain ⟨key, hrow⟩ := JsMap.mem_values.mp hmem
  have hkey := (h flowId rows key row hr hrow).2
  refine ⟨row, Option.bind_eq_some_iff.mpr ⟨rows, hr, ?_⟩, rfl⟩
  rw [specOf, hkey]
  exact hrow

/-! ## The page of a sweep -/

def isParked (c : Core V) (id : JobId) : Bool :=
  (c.jobs.get? id).any fun parent => decide (parent.state = .waitingChildren)

def isDue (now : Millis) (options : FlowSweepOptions) (reconciling : Bool) (row : MemFlowChild V) :
    Bool :=
  decide (reconciling ∧ row.status = .pending ∧ row.pendingSince ≤ now - options.pendingAgeMs)

def isOwed (row : MemFlowChild V) : Bool :=
  decide (row.status = .cancelled ∧ row.cascaded = false)

def cascadeOf (row : MemFlowChild V) : CascadeChild :=
  ⟨row.childKey, row.storeKey, row.spec.id⟩

/-- The rows of every flow that pass, in the order of the store. -/
def selectRows (entries : List (JobId × Rows V)) (p : JobId → MemFlowChild V → Bool) :
    List (JobId × MemFlowChild V) :=
  entries.flatMap fun e => (e.2.values.filter (p e.1)).map (e.1, ·)

def dueRows (s : Store V) (now : Millis) (options : FlowSweepOptions) :
    List (JobId × MemFlowChild V) :=
  selectRows s.flowChildren.entries fun id => isDue now options (isParked s.toCore id)

def sweepPage (s : Store V) (now : Millis) (options : FlowSweepOptions) :
    List (JobId × MemFlowChild V) :=
  (dueRows s now options).take options.pageSize

def owedPage (s : Store V) (options : FlowSweepOptions) : List (JobId × MemFlowChild V) :=
  (selectRows s.flowChildren.entries fun _ => isOwed).take options.pageSize

def rearm (now : Millis) (flowChildren : JsMap JobId (Rows V)) (entry : JobId × MemFlowChild V) :
    JsMap JobId (Rows V) :=
  flowChildren.modify entry.1 fun rows =>
    rows.modify entry.2.childKey fun row => { row with pendingSince := now }

/-- The items of a grouped answer. -/
def ungroup {α : Type} (groups : List (JobId × List α)) : List (JobId × α) :=
  groups.flatMap fun group => group.2.map (group.1, ·)

/-- Cutting a list at a budget that its head may use up. -/
theorem take_filter_cons {α : Type} (p : α → Bool) (a : α) (as : List α) (n : ℕ) :
    ((a :: as).filter p).take n =
      if p a = true ∧ 0 < n then a :: (as.filter p).take (n - 1) else (as.filter p).take n := by
  cases n with
  | zero => simp
  | succ n =>
    rw [List.filter_cons]
    split <;> simp_all

/-- One row of the sweep: at most one entry more on either page. -/
theorem sweepRow_eq (now : Millis) (options : FlowSweepOptions) (reconciling : Bool)
    (flowId : JobId) (scan : RowScan V) (row : MemFlowChild V) :
    sweepRow now options reconciling flowId scan row =
      let due := isDue now options reconciling row = true ∧
        0 < options.pageSize - scan.reconcileCount
      let owed := isOwed row = true ∧ 0 < options.pageSize - scan.cascadeCount
      { flowChildren := if due then rearm now scan.flowChildren (flowId, row) else scan.flowChildren
        reconcileCount := if due then scan.reconcileCount + 1 else scan.reconcileCount
        cascadeCount := if owed then scan.cascadeCount + 1 else scan.cascadeCount
        reconcileGroup := if due then scan.reconcileGroup ++ [specOf row] else scan.reconcileGroup
        cascadeGroup := if owed then scan.cascadeGroup ++ [cascadeOf row] else scan.cascadeGroup } := by
  have hdue : (isDue now options reconciling row = true ∧
      0 < options.pageSize - scan.reconcileCount) ↔
      (reconciling ∧ row.status = .pending ∧ row.pendingSince ≤ now - options.pendingAgeMs ∧
        scan.reconcileCount < options.pageSize) := by
    rw [isDue, decide_eq_true_eq, Nat.sub_pos_iff_lt]
    tauto
  have howed : (isOwed row = true ∧ 0 < options.pageSize - scan.cascadeCount) ↔
      (row.status = .cancelled ∧ row.cascaded = false ∧ scan.cascadeCount < options.pageSize) := by
    rw [isOwed, decide_eq_true_eq, Nat.sub_pos_iff_lt]
    tauto
  simp only [hdue, howed]
  by_cases h₁ : reconciling ∧ row.status = .pending ∧
    row.pendingSince ≤ now - options.pendingAgeMs ∧ scan.reconcileCount < options.pageSize
  all_goals
    by_cases h₂ : row.status = .cancelled ∧ row.cascaded = false ∧
      scan.cascadeCount < options.pageSize
  · rw [h₁.2.1] at h₂
    cases h₂.1
  · rw [sweepRow, if_pos h₁, if_neg h₂]
    simp only [if_pos h₁, if_neg h₂]
    rfl
  · rw [sweepRow, if_neg h₁, if_pos h₂]
    simp only [if_neg h₁, if_pos h₂]
    rfl
  · rw [sweepRow, if_neg h₁, if_neg h₂]
    simp only [if_neg h₁, if_neg h₂]

theorem sweepRows_eq (now : Millis) (options : FlowSweepOptions) (reconciling : Bool)
    (flowId : JobId) (rows : List (MemFlowChild V)) (scan : RowScan V) :
    rows.foldl (sweepRow now options reconciling flowId) scan =
      let due := (rows.filter (isDue now options reconciling)).take
        (options.pageSize - scan.reconcileCount)
      let owed := (rows.filter isOwed).take (options.pageSize - scan.cascadeCount)
      { flowChildren := (due.map (flowId, ·)).foldl (rearm now) scan.flowChildren
        reconcileCount := scan.reconcileCount + due.length
        cascadeCount := scan.cascadeCount + owed.length
        reconcileGroup := scan.reconcileGroup ++ due.map specOf
        cascadeGroup := scan.cascadeGroup ++ owed.map cascadeOf } := by
  induction rows generalizing scan with
  | nil => simp
  | cons row rows ih =>
    rw [List.foldl_cons, ih, sweepRow_eq]
    simp only [take_filter_cons]
    have hsub : ∀ n : ℕ, options.pageSize - n - 1 = options.pageSize - (n + 1) := by omega
    have hadd : ∀ n m : ℕ, n + 1 + m = n + (m + 1) := by omega
    by_cases h₁ : isDue now options reconciling row = true ∧
        0 < options.pageSize - scan.reconcileCount
    · by_cases h₂ : isOwed row = true ∧ 0 < options.pageSize - scan.cascadeCount
      · simp only [if_pos h₁, if_pos h₂, hsub, hadd, List.map_cons, List.foldl_cons,
          List.length_cons, List.append_assoc, List.singleton_append]
      · simp only [if_pos h₁, if_neg h₂, hsub, hadd, List.map_cons, List.foldl_cons,
          List.length_cons, List.append_assoc, List.singleton_append]
    · by_cases h₂ : isOwed row = true ∧ 0 < options.pageSize - scan.cascadeCount
      · simp only [if_neg h₁, if_pos h₂, hsub, hadd, List.map_cons, List.length_cons,
          List.append_assoc, List.singleton_append]
      · simp only [if_neg h₁, if_neg h₂]

theorem ungroup_append_group {α : Type} (groups : List (JobId × List α)) (flowId : JobId)
    (group : List α) :
    ungroup (if group = [] then groups else groups ++ [(flowId, group)]) =
      ungroup groups ++ group.map (flowId, ·) := by
  split
  · rename_i h
    rw [h, List.map_nil, List.append_nil]
  · simp [ungroup]

/-- The flows of the sweep, one after the other. -/
theorem sweepFlows_eq (c : Core V) (now : Millis) (options : FlowSweepOptions)
    (entries : List (JobId × Rows V)) (acc : FlowSweepState V) :
    let due := (selectRows entries fun id => isDue now options (isParked c id)).take
      (options.pageSize - acc.reconcileCount)
    let owed := (selectRows entries fun _ => isOwed).take (options.pageSize - acc.cascadeCount)
    let swept := entries.foldl (sweepFlow c now options) acc
    swept.flowChildren = due.foldl (rearm now) acc.flowChildren ∧
      ungroup swept.work.reconcile =
        ungroup acc.work.reconcile ++ due.map (fun e => (e.1, specOf e.2)) ∧
      ungroup swept.work.cascade =
        ungroup acc.work.cascade ++ owed.map (fun e => (e.1, cascadeOf e.2)) := by
  induction entries generalizing acc with
  | nil => simp [selectRows]
  | cons e entries ih =>
    obtain ⟨flowId, rows⟩ := e
    obtain ⟨hrows, hreconcile, hcascade⟩ := ih (sweepFlow c now options acc (flowId, rows))
    have hcut : ∀ (n k : ℕ) (xs : List (MemFlowChild V)) (ys : List (JobId × MemFlowChild V)),
        (xs.map (flowId, ·) ++ ys).take (n - k) =
          (xs.take (n - k)).map (flowId, ·) ++ ys.take (n - (k + (xs.take (n - k)).length)) := by
      intro n k xs ys
      have hlen : n - k - xs.length = n - (k + (xs.take (n - k)).length) := by
        rw [List.length_take]
        omega
      rw [List.take_append, List.length_map, ← List.map_take, hlen]
    simp only [List.foldl_cons, selectRows, List.flatMap_cons] at hrows hreconcile hcascade ⊢
    rw [hrows, hreconcile, hcascade, hcut, hcut]
    simp only [sweepFlow, sweepRows_eq, ungroup_append_group, List.nil_append, List.map_map,
      List.map_append, List.foldl_append, List.append_assoc, Function.comp_def, isParked,
      and_self]

theorem flowSweepWork_reconcile (s : Store V) (now : Millis) (options : FlowSweepOptions) :
    ungroup (flowSweepWork s now options).1.reconcile =
      (sweepPage s now options).map fun e => (e.1, specOf e.2) :=
  (sweepFlows_eq s.toCore now options s.flowChildren.entries ⟨s.flowChildren, 0, 0, ⟨[], []⟩⟩).2.1

theorem flowSweepWork_cascade (s : Store V) (now : Millis) (options : FlowSweepOptions) :
    ungroup (flowSweepWork s now options).1.cascade =
      (owedPage s options).map fun e => (e.1, cascadeOf e.2) :=
  (sweepFlows_eq s.toCore now options s.flowChildren.entries ⟨s.flowChildren, 0, 0, ⟨[], []⟩⟩).2.2

theorem mem_ungroup {α : Type} {groups : List (JobId × List α)} {flowId : JobId} {a : α} :
    (flowId, a) ∈ ungroup groups ↔ ∃ group, (flowId, group) ∈ groups ∧ a ∈ group := by
  simp [ungroup]

theorem mem_selectRows {c : Core V} {p : JobId → MemFlowChild V → Bool} {flowId : JobId}
    {row : MemFlowChild V} (hk : c.RowsKeyed) :
    (flowId, row) ∈ selectRows c.flowChildren.entries p ↔
      c.row? flowId row.childKey = some row ∧ p flowId row = true := by
  simp only [selectRows, List.mem_flatMap, List.mem_map, List.mem_filter, Prod.mk.injEq,
    Prod.exists, Core.row?, Option.bind_eq_some_iff]
  constructor
  · rintro ⟨id, rows, hr, row', ⟨hmem, hp⟩, rfl, rfl⟩
    have hrows := JsMap.get?_eq_some.mpr hr
    obtain ⟨key, hrow⟩ := JsMap.mem_values.mp hmem
    have hkey := (hk id rows key row' hrows hrow).2
    exact ⟨⟨rows, hrows, hkey ▸ hrow⟩, hp⟩
  · rintro ⟨⟨rows, hr, hrow⟩, hp⟩
    exact ⟨flowId, rows, JsMap.get?_eq_some.mp hr, row,
      ⟨JsMap.mem_values.mpr ⟨_, hrow⟩, hp⟩, rfl, rfl⟩

end EffectMq.Memory
