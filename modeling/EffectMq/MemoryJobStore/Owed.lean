import EffectMq.MemoryJobStore.Sweep

/-! # Owed cancels outlive retention

A row that is cancelled and not yet cascaded owes its child a cancel. A keep policy or a history sweep
that would delete the parent asks for such rows first, reports and fan-outs leave them alone, so only
`remove` and `markChildrenCascaded` take one away. Until then the flow sweep hands it out.
-/

namespace EffectMq.Memory
set_option autoImplicit false
set_option maxHeartbeats 250000

open Transition

variable {V : Type}

/-- The row under this key is owed the cancel of this child. -/
def View.Owes (v : View V) (childKey : String) (child : CascadeChild) : Prop :=
  ∃ row, v.row? childKey = some row ∧ isOwed row = true ∧ cascadeOf row = child

/-- The elementary steps that take the cancel away. -/
def Label.Discharges (flowId : JobId) (childKey : String) : Label V → Prop
  | .remove id => id = flowId
  | .cascade id key => id = flowId ∧ key = childKey
  | _ => False

/-- The calls that take the cancel away. -/
def OpDischarges (flowId : JobId) (childKey : String) : Op V → Prop
  | .remove id => id = flowId
  | .markChildrenCascaded id childKeys => id = flowId ∧ childKey ∈ childKeys
  | _ => False

/-! ## Steps -/

theorem isOwed_iff {row : MemFlowChild V} :
    isOwed row = true ↔ row.status = .cancelled ∧ row.cascaded = false := by
  rw [isOwed, decide_eq_true_eq]

theorem View.Owes.of_modify {job? job?' : Option (MemJob V)} {rows : Rows V} {childKey : String}
    {child : CascadeChild} (h : (⟨job?, some rows⟩ : View V).Owes childKey child) (key : String)
    {f : MemFlowChild V → MemFlowChild V}
    (hf : ∀ row, key = childKey → rows.get? childKey = some row → isOwed row = true →
      isOwed (f row) = true ∧ cascadeOf (f row) = cascadeOf row) :
    (⟨job?', some (rows.modify key f)⟩ : View V).Owes childKey child := by
  obtain ⟨row, hrow, howed, hchild⟩ := h
  have hget : (rows.modify key f).get? childKey =
      if childKey = key then (rows.get? key).map f else rows.get? childKey := JsMap.get?_modify ..
  by_cases hkey : childKey = key
  · have hrow' : rows.get? childKey = some row := hrow
    have hnew := hf row hkey.symm hrow' howed
    rw [if_pos hkey, ← hkey, hrow', Option.map_some] at hget
    rw [← hkey]
    exact ⟨f row, hget, hnew.1, hnew.2.trans hchild⟩
  · rw [if_neg hkey] at hget
    exact ⟨row, hget.trans hrow, howed, hchild⟩

theorem View.Owes.step {id : JobId} {childKey : String} {child : CascadeChild} {l : Label V}
    {v v' : View V} (h : ViewStep id l v v') (hprune : l ≠ .prune id)
    (hl : ¬ l.Discharges id childKey) (hb : Booked Covers v) (ho : v.Owes childKey child) :
    v'.Owes childKey child := by
  cases h with
  | same | insert | promote | move | finish | refan => exact ho
  | settle e now rows? =>
    obtain ⟨row, hrow, howed, hchild⟩ := ho
    obtain ⟨rows, hr, hget⟩ := Option.bind_eq_some_iff.mp hrow
    cases hr
    have hmark : markRow row = row := by
      rw [markRow, if_neg]
      rw [(isOwed_iff.mp howed).1]
      decide
    have hget' : (rows.mapValues fun _ => markRow).get? childKey = some row := by
      rw [JsMap.get?_mapValues, hget, Option.map_some, hmark]
    exact ⟨row, hget', howed, hchild⟩
  | fanOut failFast children now rows? _ hf =>
    -- rows belong to a job that has a manifest already
    obtain ⟨row, hrow, _⟩ := ho
    obtain ⟨rows, hr, _⟩ := Option.bind_eq_some_iff.mp hrow
    obtain ⟨job, flow, hj, hflow⟩ := hb.owned rows hr
    cases hj
    rw [hf] at hflow
    cases hflow
  | @report rows row₀ job? report _ hrow₀ hp =>
    refine ho.of_modify report.childKey fun row hkey hget howed => ?_
    rw [hkey, hget] at hrow₀
    cases hrow₀
    rw [(isOwed_iff.mp howed).1] at hp
    cases hp
  | rearm job? rows key now => exact ho.of_modify key fun row _ _ howed => ⟨howed, rfl⟩
  | cascade job? rows key =>
    exact ho.of_modify key fun row hkey _ _ => absurd ⟨rfl, hkey⟩ hl
  | remove => exact absurd rfl hl
  | prune => exact absurd rfl hprune

/-- Retention does not delete a job that owes a cancel. -/
theorem View.Owes.owesCascades {c : Core V} {flowId : JobId} {childKey : String}
    {child : CascadeChild} (h : (c.view flowId).Owes childKey child) :
    c.owesCascades flowId = true := by
  obtain ⟨row, hrow, howed, _⟩ := h
  obtain ⟨rows, hr, hget⟩ := Option.bind_eq_some_iff.mp hrow
  have hrows : c.flowChildren.get? flowId = some rows := hr
  unfold Core.owesCascades
  rw [hrows]
  refine List.any_eq_true.mpr ⟨row, JsMap.mem_values.mpr ⟨childKey, hget⟩, ?_⟩
  obtain ⟨hst, hcas⟩ := isOwed_iff.mp howed
  rw [hst, hcas]
  rfl

theorem Step.owes {c c' : Core V} {l : Label V} (h : Step c l c') (hk : c.Keyed) {flowId : JobId}
    {childKey : String} {child : CascadeChild} (hl : ¬ l.Discharges flowId childKey)
    (hb : Booked Covers (c.view flowId)) (ho : (c.view flowId).Owes childKey child) :
    (c'.view flowId).Owes childKey child := by
  refine View.Owes.step (h.view hk flowId) ?_ hl hb ho
  rintro rfl
  cases h with
  | prune _ hnone =>
    rw [ho.owesCascades] at hnone
    cases hnone

theorem Does.owes {P : Label V → Prop} {c c' : Core V} (h : Does P c c') (hk : c.Keyed)
    {flowId : JobId} {childKey : String} {child : CascadeChild}
    (hP : ∀ l, P l → ¬ l.Discharges flowId childKey) (hb : Booked Covers (c.view flowId))
    (ho : (c.view flowId).Owes childKey child) : (c'.view flowId).Owes childKey child := by
  obtain ⟨ls, hr, hl⟩ := h
  induction hr with
  | refl => exact ho
  | @cons c d e l ls hs _ ih =>
    have hlab : l.Fans fun _ : List (FlowChildSpec V) => True := by
      cases l <;> trivial
    have hd := hs.owes hk (hP l (hl l (by simp))) hb ho
    exact ih (hs.keyed hk) (hb.step covers_accounts (hs.view hk flowId) hlab) hd
      fun l' h' => hl l' (by simp [h'])

theorem Allows.not_discharges {now : Millis} {op : Op V} {l : Label V} (h : Allows now op l)
    {flowId : JobId} {childKey : String} (hop : ¬ OpDischarges flowId childKey op) :
    ¬ l.Discharges flowId childKey := by
  cases h with
  | cascade hmem =>
    rintro ⟨rfl, rfl⟩
    exact hop ⟨rfl, hmem⟩
  | remove => exact hop
  | _ => exact fun hl => hl

/-! ## Runs -/

def owedRows (s : Store V) : List (JobId × MemFlowChild V) :=
  selectRows s.flowChildren.entries fun _ => isOwed

theorem owed_listed {s : Store V} (hk : s.toCore.RowsKeyed) {flowId : JobId} {childKey : String}
    {child : CascadeChild} (ho : (s.toCore.view flowId).Owes childKey child) (now : Millis)
    {options : FlowSweepOptions} (hlimit : ((owedRows s).length : ℤ) ≤ options.limit) :
    ∃ group, (flowId, group) ∈ (flowSweepWork s now options).1.cascade ∧ child ∈ group := by
  obtain ⟨row, hrow, howed, rfl⟩ := ho
  have hrow : s.toCore.row? flowId childKey = some row := hrow
  have hkey : row.childKey = childKey := (hk.row? hrow).2
  have hmem : (flowId, row) ∈ owedRows s := by
    refine (mem_selectRows hk).mpr ⟨?_, howed⟩
    rw [hkey, hrow]
  have hpage : owedPage s options = owedRows s := by
    refine List.take_of_length_le ?_
    unfold FlowSweepOptions.pageSize
    unfold owedRows at hlimit
    omega
  apply mem_ungroup.mp
  rw [flowSweepWork_cascade, hpage]
  exact List.mem_map_of_mem hmem

/-- What the steps of a flow need to know about the store. -/
structure FlowShape (s : Store V) : Prop where
  keyed : s.toCore.Keyed
  booked : ∀ id, Booked Covers (s.toCore.view id)
  rowsKeyed : s.toCore.RowsKeyed

theorem FlowShape.exec {s : Store V} (h : FlowShape s) (now : Millis) (op : Op V) :
    FlowShape (exec s now op) where
  keyed := exec_keyed h.keyed now op
  booked := fun id => exec_booked covers_accounts h.keyed op.fans_all (h.booked id)
  rowsKeyed := exec_rowsKeyed h.keyed now op h.rowsKeyed

theorem reachable_flowShape {s : Store V} (h : Reachable Initial Next s) : FlowShape s := by
  refine h.induct (I := FlowShape) ?_ ?_
  · rintro s rfl
    exact ⟨fun _ _ hj => (by cases hj), fun _ => .absent Covers, fun _ _ _ _ hr => (by cases hr)⟩
  · rintro s event t rfl hs
    exact hs.exec event.1 event.2

theorem Run.owes {s t : Store V} {es : List (Millis × Op V)} (hr : Run Next s es t)
    {flowId : JobId} {childKey : String} {child : CascadeChild}
    (hes : ∀ e ∈ es, ¬ OpDischarges flowId childKey e.2) (h : FlowShape s)
    (ho : (s.toCore.view flowId).Owes childKey child) :
    (t.toCore.view flowId).Owes childKey child := by
  induction hr with
  | refl => exact ho
  | @cons s u t e es hs _ ih =>
    cases hs
    have hfirst := hes e (by simp)
    have hstep := (exec_does h.keyed e.1 e.2).owes h.keyed
      (fun l hl => hl.not_discharges hfirst) (h.booked flowId) ho
    exact ih (fun e' he' => hes e' (by simp [he'])) (h.exec e.1 e.2) hstep

/-- A dependency row that is cancelled and not cascaded stays, for the same child, along every run that
neither removes its parent nor marks it cascaded, and every flow sweep whose page has room for all
such rows lists it. -/
theorem owed_cancel_kept {s t : Store V} {es : List (Millis × Op V)}
    (h : Reachable Initial Next s) (hr : Run Next s es t) {flowId : JobId} {childKey : String}
    (hes : ∀ e ∈ es, ¬ OpDischarges flowId childKey e.2) {row : MemFlowChild V}
    (hrow : s.row? flowId childKey = some row) (howed : isOwed row = true) :
    (∃ row', t.row? flowId childKey = some row' ∧ isOwed row' = true ∧
      cascadeOf row' = cascadeOf row) ∧
    ∀ now options, ((owedRows t).length : ℤ) ≤ options.limit →
      ∃ group, (flowId, group) ∈ (flowSweepWork t now options).1.cascade ∧
        cascadeOf row ∈ group := by
  have hshape := reachable_flowShape h
  have ho : (s.toCore.view flowId).Owes childKey (cascadeOf row) := ⟨row, hrow, howed, rfl⟩
  have ht := Run.owes hr hes hshape ho
  have hrowsKeyed : t.toCore.RowsKeyed := (reachable_flowShape (h.run hr)).rowsKeyed
  refine ⟨?_, fun now options hlimit => owed_listed hrowsKeyed ht now hlimit⟩
  obtain ⟨row', hrow', howed', hchild⟩ := ht
  exact ⟨row', hrow', howed', hchild⟩

/-- A fail-fast parent that keeps no failed jobs fails on the report of `a` and owes `b` a cancel. -/
def failFastParent : List (Millis × Op Unit) :=
  [(0, .enqueue { EnqueueRequest.plain "p" "flow" "q" () with
      keep := some { failed := some ⟨some 0, none⟩ } } .counter),
    (1, .claim ⟨"q", ["flow"], "t", 30⟩),
    (2, .ack "p" "t" (.fanOut true
      [⟨"a", "kids", .plain "a" "child" "q" ()⟩, ⟨"b", "kids", .plain "b" "child" "q" ()⟩])),
    (3, .recordChildResults [⟨"p", "a", .failed, none, none⟩])]

/-- Neither its keep policy, nor a sweep of all history, nor a retry takes the cancel of `b` away. -/
theorem owed_cancel_kept_failFast :
    ∃ row', (execs (execs Store.empty failFastParent)
        [(9, .sweepHistory ⟨some 0, some 0, some 0⟩), (10, .retry "p")]).row? "p" "b" = some row' ∧
      isOwed row' = true ∧ cascadeOf row' = ⟨"b", "kids", some "b"⟩ := by
  have hrow : (execs Store.empty failFastParent).row? "p" "b" = some
      ⟨"p", "b", "kids", .plain "b" "child" "q" (), .cancelled, none, none, false, 2⟩ := by rfl
  exact (owed_cancel_kept (reachable_next failFastParent)
    (run_next [(9, .sweepHistory ⟨some 0, some 0, some 0⟩), (10, .retry "p")] _)
    (by simp [OpDischarges]) hrow rfl).1

end EffectMq.Memory
