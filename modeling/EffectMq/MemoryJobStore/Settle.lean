import EffectMq.MemoryJobStore.Manifest

/-! # Settles

A parent is parked only by a fan-out (`View.NotParked.step`). A `parentSettled` in the answer of
`recordChildResults` names a parent that this call took out of `waiting-children`, and names it once
(`recordChildResults_settled`).
-/

namespace EffectMq.Memory
set_option autoImplicit false
set_option maxHeartbeats 250000

open Transition

variable {V : Type}

/-! ## Parked parents -/

/-- Nothing but a fan-out parks a job. -/
theorem View.NotParked.step {id : JobId} {l : Label V} {v v' : View V} (h : ViewStep id l v v')
    (hl : ∀ failFast children now, l ≠ .park id failFast children now) (hv : v.NotParked) :
    v'.NotParked := by
  intro job' hj hw
  cases h with
  | same => exact hv job' hj hw
  | insert =>
    cases hj
    revert hw
    simp only [newJob]
    split <;> simp
  | promote =>
    cases hj
    cases hw
  | @move job m rows? hm =>
    cases hj
    cases m with
    | replace | extend | requestCancel => exact hv job rfl hw
    | requeue delayMs =>
      revert hw
      simp only [Move.apply]
      split <;> simp
    | promoteNow | claim | release | stall | retry | resume => cases hw
  | @finish job e | @settle job e =>
    cases hj
    rw [endJob_state] at hw
    cases ho : e.outcome <;> rw [ho] at hw <;> cases hw
  | fanOut | refan => exact hl _ _ _ rfl
  | report =>
    obtain ⟨job, hj', rfl⟩ := Option.map_eq_some_iff.mp hj
    exact hv job hj' hw
  | remove | prune => cases hj
  | rearm | cascade => exact hv job' hj hw

/-- An operation other than a fan-out of the id does not park it. -/
theorem exec_notParked {s : Store V} (hk : s.toCore.Keyed) (now : Millis) (op : Op V) {id : JobId}
    (hop : ∀ token failFast children, op ≠ .ack id token (.fanOut failFast children))
    (h : (s.toCore.view id).NotParked) : ((exec s now op).toCore.view id).NotParked := by
  refine (exec_does hk now op).view hk id (fun l v v' hl hstep _ hv => hv.step hstep ?_) h
  rintro failFast children t rfl
  cases hl
  exact hop _ _ _ rfl

theorem settleTouched_notParked (now : Millis) (reports : List (FlowChildReport V))
    {acc : List ReportResult × Store V} (entry : JobId × Touch) (hk : acc.2.toCore.Keyed)
    {id : JobId} (h : (acc.2.toCore.view id).NotParked) :
    ((settleTouched now reports acc entry).2.toCore.view id).NotParked := by
  refine (settleTouched_does now reports acc entry hk).view hk id
    (fun l v v' hl hstep _ hv => hv.step hstep ?_) h
  rintro failFast children t rfl
  exact hl

theorem recorded_notParked {s : Store V} (hk : s.toCore.Keyed) (reports : List (FlowChildReport V))
    {id : JobId} (h : (s.toCore.view id).NotParked) :
    ((recorded s reports).core.view id).NotParked := by
  refine (recorded_does s 0 reports).view hk id (fun l v v' hl hstep _ hv => hv.step hstep ?_) h
  rintro failFast children t rfl
  cases hl

/-! ## The answer of `recordChildResults` -/

/-- The result at `i` says that the report at `i` settled the parent `id`. -/
def SettledAt (reports : List (FlowChildReport V)) (results : List ReportResult) (i : ℕ)
    (id : JobId) : Prop :=
  ∃ result report, results[i]? = some result ∧ result.parentSettled = true ∧
    reports[i]? = some report ∧ report.flowId = id

/-- The indices a touch keeps are those of reports of its flow. -/
def Touch.Of (reports : List (FlowChildReport V)) (id : JobId) (touch : Touch) : Prop :=
  ∀ i, i = touch.lastApplied ∨ touch.firstAppliedFailed = some i →
    ∃ report, reports[i]? = some report ∧ report.flowId = id

/-- What phase 1 leaves for phase 2. -/
structure Recorded (reports : List (FlowChildReport V)) (acc : RecordState V) : Prop where
  unsettled : ∀ result ∈ acc.results, result.parentSettled = false
  touched : ∀ id touch, acc.touched.get? id = some touch → touch.Of reports id

theorem recordReport_recorded {reports : List (FlowChildReport V)} {acc : RecordState V}
    (h : Recorded reports acc) (entry : FlowChildReport V × ℕ)
    (he : reports[entry.2]? = some entry.1) : Recorded reports (recordReport acc entry) := by
  unfold recordReport
  simp only
  split
  · exact h
  · split
    · exact h
    · refine ⟨fun result hr => ?_, fun id touch ht => ?_⟩
      · rcases List.mem_or_eq_of_mem_set hr with hr | rfl
        · exact h.unsettled result hr
        · rfl
      · rw [touchReport, JsMap.get?_set] at ht
        split at ht
        · rename_i hid
          cases ht
          intro i hi
          have hself : ∃ report, reports[entry.2]? = some report ∧ report.flowId = id :=
            ⟨entry.1, he, hid.symm⟩
          have hold : ∀ touch', acc.touched.get? entry.1.flowId = some touch' →
              touch'.firstAppliedFailed = some i →
              ∃ report, reports[i]? = some report ∧ report.flowId = id := by
            intro touch' ht' hf
            exact h.touched id touch' (hid ▸ ht') i (.inr hf)
          rcases hi with rfl | hi
          · exact hself
          · simp only at hi
            split at hi
            · cases hi
              exact hself
            · cases hg : acc.touched.get? entry.1.flowId with
              | none =>
                rw [hg] at hi
                cases hi
              | some touch' =>
                rw [hg] at hi
                exact hold touch' hg hi
        · exact h.touched id touch ht

theorem recorded_recorded (s : Store V) (reports : List (FlowChildReport V)) :
    Recorded reports (recorded s reports) := by
  have hfold : ∀ (entries : List (FlowChildReport V × ℕ)) (acc : RecordState V),
      (∀ entry ∈ entries, reports[entry.2]? = some entry.1) → Recorded reports acc →
      Recorded reports (entries.foldl recordReport acc) := by
    intro entries
    induction entries with
    | nil => exact fun _ _ h => h
    | cons entry entries ih =>
      intro acc he h
      exact ih _ (fun e hm => he e (by simp [hm])) (recordReport_recorded h entry (he entry (by simp)))
  refine hfold _ _ (fun entry hm => ?_) ⟨fun result hr => ?_, fun id touch ht => by cases ht⟩
  · exact List.mem_zipIdx_iff_getElem?.mp hm
  · obtain ⟨_, _, rfl⟩ := List.mem_map.mp hr
    rfl

/-- Phase 2 marks at most one index of the touch it looks at, and then it unparks the flow. -/
theorem settleTouched_results (now : Millis) (reports : List (FlowChildReport V))
    (acc : List ReportResult × Store V) (entry : JobId × Touch) (hk : acc.2.toCore.Keyed) :
    (settleTouched now reports acc entry).1 = acc.1 ∨
      ∃ i, (settleTouched now reports acc entry).1 = acc.1.set i ⟨true, true⟩ ∧
        (i = entry.2.lastApplied ∨ entry.2.firstAppliedFailed = some i) ∧
        ¬ (acc.2.toCore.view entry.1).NotParked ∧
        ((settleTouched now reports acc entry).2.toCore.view entry.1).NotParked := by
  unfold settleTouched
  simp only
  split
  · exact .inl rfl
  · rename_i parent hj
    split
    · exact .inl rfl
    · rename_i flow hflow
      split
      · exact .inl rfl
      · rename_i hw
        have hw : parent.state = .waitingChildren := by_contra hw
        have hparked : ¬ (acc.2.toCore.view entry.1).NotParked := fun h => h parent hj hw
        split
        · rename_i index report hfirst
          obtain ⟨i, hi, hreport⟩ := Option.bind_eq_some_iff.mp hfirst
          obtain ⟨_, _, heq⟩ := Option.map_eq_some_iff.mp hreport
          cases heq
          have hpid := hk _ _ hj
          refine .inr ⟨index, rfl, .inr ?_, hparked, ?_⟩
          · split at hi
            · exact hi
            · cases hi
          · rw [← hpid] at hj ⊢
            exact (settleFailFast_finishes hk now report.childKey hj hw).notParked hk
        · split
          · rename_i hpending
            have hmove : Step acc.2.toCore (.move entry.1 (.resume now (acc.2.seq + 1))) _ :=
              .move (.resume now (acc.2.seq + 1)) hj ⟨hw, flow, hflow, hpending⟩
            refine .inr ⟨_, rfl, .inl rfl, hparked, ?_⟩
            rw [makeRunnable_toCore]
            exact resume_notParked hk hmove
          · exact .inl rfl

theorem SettledAt.of_set {reports : List (FlowChildReport V)} {results : List ReportResult}
    {result : ReportResult} {i j : ℕ} {id : JobId}
    (h : SettledAt reports (results.set j result) i id) : i = j ∨ SettledAt reports results i id := by
  obtain ⟨r, report, hr, hs, hreport, hid⟩ := h
  by_cases hij : i = j
  · exact .inl hij
  · rw [List.getElem?_set_ne (Ne.symm hij)] at hr
    exact .inr ⟨r, report, hr, hs, hreport, hid⟩

/-- Phase 2 so far: each settled index belongs to a flow it has looked at and unparked, and no flow
has two. -/
structure Settling (reports : List (FlowChildReport V)) (start : Core V) (seen : List JobId)
    (acc : List ReportResult × Store V) : Prop where
  keyed : acc.2.toCore.Keyed
  kept : ∀ id, (start.view id).NotParked → (acc.2.toCore.view id).NotParked
  settled : ∀ i id, SettledAt reports acc.1 i id →
    id ∈ seen ∧ ¬ (start.view id).NotParked ∧ (acc.2.toCore.view id).NotParked
  once : ∀ i j id, SettledAt reports acc.1 i id → SettledAt reports acc.1 j id → i = j

theorem Settling.step {now : Millis} {reports : List (FlowChildReport V)} {start : Core V}
    {seen : List JobId} {acc : List ReportResult × Store V} (h : Settling reports start seen acc)
    (entry : JobId × Touch) (hof : entry.2.Of reports entry.1) (hnew : entry.1 ∉ seen) :
    Settling reports start (entry.1 :: seen) (settleTouched now reports acc entry) := by
  have hkept : ∀ id, (acc.2.toCore.view id).NotParked →
      ((settleTouched now reports acc entry).2.toCore.view id).NotParked :=
    fun id hn => settleTouched_notParked now reports entry h.keyed hn
  refine ⟨(settleTouched_does now reports acc entry h.keyed).keyed h.keyed,
    fun id hn => hkept id (h.kept id hn), ?_, ?_⟩
  all_goals
    rcases settleTouched_results now reports acc entry h.keyed with
      heq | ⟨i₀, heq, hindex, hparked, hunparked⟩
  · intro i id hs
    obtain ⟨hseen, hstart, hnow⟩ := h.settled i id (heq ▸ hs)
    exact ⟨by simp [hseen], hstart, hkept id hnow⟩
  · intro i id hs
    obtain ⟨report₀, hreport₀, hid₀⟩ := hof i₀ hindex
    rw [heq] at hs
    rcases hs.of_set with rfl | hs
    · obtain ⟨_, report, _, _, hreport, rfl⟩ := hs
      cases hreport₀.symm.trans hreport
      rw [hid₀]
      exact ⟨by simp, fun hn => hparked (h.kept _ hn), hunparked⟩
    · obtain ⟨hseen, hstart, hnow⟩ := h.settled i id hs
      exact ⟨by simp [hseen], hstart, hkept id hnow⟩
  · exact fun i j id hi hj => h.once i j id (heq ▸ hi) (heq ▸ hj)
  · intro i j id hi hj
    obtain ⟨report₀, hreport₀, hid₀⟩ := hof i₀ hindex
    rw [heq] at hi hj
    -- the flow of the new index was not settled before
    have hfresh : ∀ k, SettledAt reports acc.1 k id → id ≠ entry.1 :=
      fun k hk hid => hnew (hid ▸ (h.settled k id hk).1)
    have hof₀ : ∀ k, k = i₀ → SettledAt reports (acc.1.set i₀ ⟨true, true⟩) k id → id = entry.1 := by
      rintro k rfl ⟨_, report, _, _, hreport, rfl⟩
      cases hreport₀.symm.trans hreport
      exact hid₀
    rcases hi.of_set with hi₀ | hi' <;> rcases hj.of_set with hj₀ | hj'
    · rw [hi₀, hj₀]
    · exact absurd (hof₀ i hi₀ hi) (hfresh j hj')
    · exact absurd (hof₀ j hj₀ hj) (hfresh i hi')
    · exact h.once i j id hi' hj'

theorem recordChildResults_settling {s : Store V} (hk : s.toCore.Keyed) (now : Millis)
    (reports : List (FlowChildReport V)) :
    ∃ seen, Settling reports (recorded s reports).core seen (recordChildResults s now reports) := by
  have hrec := recorded_recorded s reports
  have hfold : ∀ (entries : List (JobId × Touch)) (seen : List JobId)
      (acc : List ReportResult × Store V), (entries.map Prod.fst).Nodup →
      (∀ entry ∈ entries, entry.2.Of reports entry.1 ∧ entry.1 ∉ seen) →
      Settling reports (recorded s reports).core seen acc →
      ∃ seen', Settling reports (recorded s reports).core seen'
        (entries.foldl (settleTouched now reports) acc) := by
    intro entries
    induction entries with
    | nil => exact fun seen acc _ _ h => ⟨seen, h⟩
    | cons entry entries ih =>
      intro seen acc hnd he h
      rw [List.map_cons, List.nodup_cons] at hnd
      obtain ⟨hof, hnew⟩ := he entry (by simp)
      refine ih (entry.1 :: seen) _ hnd.2 (fun e hm => ⟨(he e (by simp [hm])).1, ?_⟩)
        (h.step entry hof hnew)
      rw [List.mem_cons, not_or]
      exact ⟨fun heq => hnd.1 (heq ▸ List.mem_map_of_mem hm), (he e (by simp [hm])).2⟩
  refine hfold (recorded s reports).touched.entries []
    ((recorded s reports).results, { s with toCore := (recorded s reports).core })
    (recorded s reports).touched.nodup (fun entry hm => ⟨?_, by simp⟩)
    ⟨(recorded_does s now reports).keyed hk, fun _ h => h, ?_, ?_⟩
  · exact hrec.touched entry.1 entry.2 (JsMap.get?_eq_some.mpr hm)
  · rintro i id ⟨result, _, hr, hs, _, _⟩
    rw [hrec.unsettled result (List.mem_of_getElem? hr)] at hs
    cases hs
  · rintro i j id ⟨result, _, hr, hs, _, _⟩
    rw [hrec.unsettled result (List.mem_of_getElem? hr)] at hs
    cases hs

/-- A report answered with `parentSettled` belongs to a parent that this call took out of
`waiting-children`. -/
theorem recordChildResults_settled {s : Store V} (hk : s.toCore.Keyed) (now : Millis)
    (reports : List (FlowChildReport V)) {i : ℕ} {id : JobId}
    (h : SettledAt reports (recordChildResults s now reports).1 i id) :
    ¬ (s.toCore.view id).NotParked ∧
      ((recordChildResults s now reports).2.toCore.view id).NotParked := by
  obtain ⟨seen, hset⟩ := recordChildResults_settling hk now reports
  obtain ⟨_, hstart, hnow⟩ := hset.settled i id h
  exact ⟨fun hn => hstart (recorded_notParked hk reports hn), hnow⟩

/-- At most one report of a batch is answered with the settle of a parent. -/
theorem recordChildResults_settled_once {s : Store V} (hk : s.toCore.Keyed) (now : Millis)
    (reports : List (FlowChildReport V)) {i j : ℕ} {id : JobId}
    (hi : SettledAt reports (recordChildResults s now reports).1 i id)
    (hj : SettledAt reports (recordChildResults s now reports).1 j id) : i = j := by
  obtain ⟨seen, hset⟩ := recordChildResults_settling hk now reports
  exact hset.once i j id hi hj

end EffectMq.Memory
