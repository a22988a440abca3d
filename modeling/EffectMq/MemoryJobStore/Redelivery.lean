import EffectMq.MemoryJobStore.Settle

/-! # Redelivered reports

A report applies only to a pending row and only as the first report of the row in its batch
(`recordChildResults_applied`). Every other report is answered with `applied = false` and makes no
difference (`recordChildResults_refused`, `recordChildResults_idle`). After a batch no row it names
is pending (`recordChildResults_answered`).
-/

namespace EffectMq.Memory
set_option autoImplicit false
set_option maxHeartbeats 250000

variable {V : Type}

/-! ## One report -/

theorem row?_waits {c : Core V} {flowId : JobId} {childKey : String} {row : MemFlowChild V}
    (hrow : c.row? flowId childKey = some row) :
    (c.view flowId).Waits childKey ↔ row.status = .pending := by
  obtain ⟨rows, hr, hrow⟩ := Option.bind_eq_some_iff.mp hrow
  have hr : (c.view flowId).rows = some rows := hr
  constructor
  · rintro ⟨rows', row', hr', hrow', hp⟩
    cases hr.symm.trans hr'
    cases hrow.symm.trans hrow'
    exact hp
  · exact fun hp => ⟨rows, row, hr, hrow, hp⟩

theorem not_waits_of_row? {c : Core V} {flowId : JobId} {childKey : String}
    (hrow : c.row? flowId childKey = none) : ¬ (c.view flowId).Waits childKey := by
  rintro ⟨rows, row, hr, hrow', _⟩
  have hr : c.flowChildren.get? flowId = some rows := hr
  rw [Core.row?, hr, Option.bind_some, hrow'] at hrow
  cases hrow

/-- A report applies exactly if its row is pending. -/
theorem recordReport_cases (acc : RecordState V) (report : FlowChildReport V) (i : ℕ) :
    (¬ (acc.core.view report.flowId).Waits report.childKey ∧ recordReport acc (report, i) = acc) ∨
    ∃ row, acc.core.row? report.flowId report.childKey = some row ∧ row.status = .pending ∧
      recordReport acc (report, i) =
        { core := acc.core.applyReport row report
          results := acc.results.set i ⟨true, false⟩
          touched := touchReport acc.touched report i } := by
  cases hrow : acc.core.row? report.flowId report.childKey with
  | none =>
    refine .inl ⟨not_waits_of_row? hrow, ?_⟩
    simp only [recordReport, hrow]
  | some row =>
    by_cases hp : row.status = .pending
    · refine .inr ⟨row, rfl, hp, ?_⟩
      simp only [recordReport, hrow, hp, ne_eq, not_true, if_false]
    · refine .inl ⟨fun hw => hp ((row?_waits hrow).mp hw), ?_⟩
      simp only [recordReport, hrow, ne_eq, hp, not_false_eq_true, if_true]

theorem recordReport_waits {acc : RecordState V} (hk : acc.core.Keyed)
    (entry : FlowChildReport V × ℕ) {id : JobId} {childKey : String}
    (hw : ((recordReport acc entry).core.view id).Waits childKey) :
    (acc.core.view id).Waits childKey := by
  rcases recordReport_cases acc entry.1 entry.2 with ⟨_, heq⟩ | ⟨row, hrow, hp, heq⟩ <;>
    rw [heq] at hw
  · exact hw
  · have hs : Step acc.core (.report entry.1) (acc.core.applyReport row entry.1) :=
      .report entry.1 hrow hp
    exact (hs.view hk id).waits (fun ⟨_, _, _, _, hl, _⟩ => by cases hl) hw

theorem recordReport_answered (acc : RecordState V) (report : FlowChildReport V) (i : ℕ) :
    ¬ ((recordReport acc (report, i)).core.view report.flowId).Waits report.childKey := by
  rcases recordReport_cases acc report i with ⟨hn, heq⟩ | ⟨row, hrow, hp, heq⟩ <;> rw [heq]
  · exact hn
  · rintro ⟨rows', row', hr, hrow', hp'⟩
    have hr : (acc.core.applyReport row report).flowChildren.get? report.flowId = some rows' := hr
    rw [applyReport_flowChildren, JsMap.get?_modify, if_pos rfl] at hr
    obtain ⟨rows, _, rfl⟩ := Option.map_eq_some_iff.mp hr
    rw [JsMap.get?_modify, if_pos rfl] at hrow'
    obtain ⟨_, _, rfl⟩ := Option.map_eq_some_iff.mp hrow'
    exact toChildStatus_ne_pending _ hp'

/-! ## Phase 1 -/

/-- No earlier report of the batch names the row. -/
def First (reports : List (FlowChildReport V)) (i : ℕ) (report : FlowChildReport V) : Prop :=
  ∀ j < i, ∀ r, reports[j]? = some r → ¬ (r.flowId = report.flowId ∧ r.childKey = report.childKey)

/-- After the first `n` reports of a batch. -/
structure Answered (start : Core V) (reports : List (FlowChildReport V)) (n : ℕ)
    (acc : RecordState V) : Prop where
  keyed : acc.core.Keyed
  length : acc.results.length = reports.length
  waits : ∀ id key, (acc.core.view id).Waits key → (start.view id).Waits key
  seen : ∀ (i : ℕ) (report : FlowChildReport V), i < n → reports[i]? = some report →
    ¬ (acc.core.view report.flowId).Waits report.childKey
  unsettled : ∀ (i : ℕ) (result : ReportResult), acc.results[i]? = some result →
    result.parentSettled = false
  applied : ∀ (i : ℕ) (result : ReportResult), acc.results[i]? = some result →
    result.applied = true → i < n ∧ ∃ report, reports[i]? = some report ∧
      (start.view report.flowId).Waits report.childKey ∧ First reports i report
  touched : ∀ id touch (i : ℕ), acc.touched.get? id = some touch →
    (i = touch.lastApplied ∨ touch.firstAppliedFailed = some i) →
    ∃ result, acc.results[i]? = some result ∧ result.applied = true

theorem Answered.start {start : Core V} (hk : start.Keyed) (reports : List (FlowChildReport V)) :
    Answered start reports 0
      { core := start, results := reports.map fun _ => ⟨false, false⟩, touched := ∅ } := by
  have hfalse : ∀ (i : ℕ) (result : ReportResult),
      (reports.map fun _ => (⟨false, false⟩ : ReportResult))[i]? = some result →
      result = ⟨false, false⟩ := by
    intro i result hr
    obtain ⟨_, _, rfl⟩ := List.mem_map.mp (List.mem_of_getElem? hr)
    rfl
  refine ⟨hk, by simp, fun _ _ h => h, fun _ _ h => absurd h (Nat.not_lt_zero _), ?_, ?_, ?_⟩
  · intro i result hr
    rw [hfalse i result hr]
  · intro i result hr ha
    rw [hfalse i result hr] at ha
    cases ha
  · intro _ _ _ ht
    cases ht

theorem touchReport_index {touched : JsMap JobId Touch} {report : FlowChildReport V} {n i : ℕ}
    {id : JobId} {touch : Touch} (ht : (touchReport touched report n).get? id = some touch)
    (hi : i = touch.lastApplied ∨ touch.firstAppliedFailed = some i) :
    i = n ∨ ∃ touch', touched.get? id = some touch' ∧
      (i = touch'.lastApplied ∨ touch'.firstAppliedFailed = some i) := by
  rw [touchReport, JsMap.get?_set] at ht
  split at ht
  · rename_i hid
    cases ht
    rcases hi with rfl | hi
    · exact .inl rfl
    · simp only at hi
      split at hi
      · exact .inl (Option.some.inj hi).symm
      · cases hg : touched.get? report.flowId with
        | none =>
          rw [hg] at hi
          cases hi
        | some touch' =>
          rw [hg] at hi
          exact .inr ⟨touch', hid ▸ hg, .inr hi⟩
  · exact .inr ⟨touch, ht, hi⟩

theorem Answered.step {start : Core V} {reports : List (FlowChildReport V)} {n : ℕ}
    {acc : RecordState V} (h : Answered start reports n acc) {report : FlowChildReport V}
    (hr : reports[n]? = some report) :
    Answered start reports (n + 1) (recordReport acc (report, n)) := by
  have hn : n < acc.results.length := by
    rw [h.length]
    exact (List.getElem?_eq_some_iff.mp hr).1
  have hkeyed : (recordReport acc (report, n)).core.Keyed := by
    have hmem : report ∈ reports := List.mem_of_getElem? hr
    exact (recordReport_does 0 acc (report, n) hmem).keyed h.keyed
  have hwaits : ∀ id key, ((recordReport acc (report, n)).core.view id).Waits key →
      (acc.core.view id).Waits key := fun id key => recordReport_waits h.keyed (report, n)
  have hseen : ∀ (i : ℕ) r, i < n + 1 → reports[i]? = some r →
      ¬ ((recordReport acc (report, n)).core.view r.flowId).Waits r.childKey := by
    intro i r hi hri
    rcases Nat.lt_succ_iff_lt_or_eq.mp hi with hlt | rfl
    · exact fun hw => h.seen i r hlt hri (hwaits _ _ hw)
    · cases hr.symm.trans hri
      exact recordReport_answered acc report i
  have hkept : ∀ id key, ((recordReport acc (report, n)).core.view id).Waits key →
      (start.view id).Waits key := fun id key hw => h.waits id key (hwaits id key hw)
  rcases recordReport_cases acc report n with ⟨_, heq⟩ | ⟨row, hrow, hp, heq⟩
  · rw [heq] at hkeyed hseen hkept ⊢
    exact ⟨hkeyed, h.length, hkept, hseen, h.unsettled,
      fun i result hres ha => ⟨by have hi := (h.applied i result hres ha).1; omega,
        (h.applied i result hres ha).2⟩, h.touched⟩
  · rw [heq] at hkeyed hseen hkept ⊢
    have hget : ∀ (i : ℕ) result, (acc.results.set n ⟨true, false⟩)[i]? = some result →
        i = n ∧ result = ⟨true, false⟩ ∨ i ≠ n ∧ acc.results[i]? = some result := by
      intro i result hi
      by_cases hin : i = n
      · subst hin
        rw [List.getElem?_set_self hn] at hi
        exact .inl ⟨rfl, (Option.some.inj hi).symm⟩
      · rw [List.getElem?_set_ne (Ne.symm hin)] at hi
        exact .inr ⟨hin, hi⟩
    have hpending : (acc.core.view report.flowId).Waits report.childKey := (row?_waits hrow).mpr hp
    refine ⟨hkeyed, by simp [h.length], hkept, hseen, ?_, ?_, ?_⟩
    · intro i result hi
      rcases hget i result hi with ⟨_, rfl⟩ | ⟨_, hi⟩
      · rfl
      · exact h.unsettled i result hi
    · intro i result hi ha
      rcases hget i result hi with ⟨rfl, _⟩ | ⟨_, hi⟩
      · refine ⟨by omega, report, hr, h.waits _ _ hpending, ?_⟩
        -- the row was pending until now, so no earlier report names it
        rintro j hj r hrj ⟨hf, hc⟩
        exact h.seen j r hj hrj (by rw [hf, hc]; exact hpending)
      · exact ⟨by have hlt := (h.applied i result hi ha).1; omega, (h.applied i result hi ha).2⟩
    · intro id touch i ht hi
      by_cases hin : i = n
      · exact ⟨⟨true, false⟩, by rw [hin, List.getElem?_set_self hn], rfl⟩
      · rw [List.getElem?_set_ne (Ne.symm hin)]
        rcases touchReport_index ht hi with heq | ⟨touch', ht', hi'⟩
        · exact absurd heq hin
        · exact h.touched id touch' i ht' hi'

theorem recorded_answered {s : Store V} (hk : s.toCore.Keyed) (reports : List (FlowChildReport V)) :
    Answered s.toCore reports reports.length (recorded s reports) := by
  have hfold : ∀ (rest done : List (FlowChildReport V)) (acc : RecordState V),
      reports = done ++ rest → Answered s.toCore reports done.length acc →
      Answered s.toCore reports reports.length ((rest.zipIdx done.length).foldl recordReport acc) := by
    intro rest
    induction rest with
    | nil =>
      intro done acc heq h
      rw [List.append_nil] at heq
      rw [List.zipIdx_nil, List.foldl_nil, heq]
      exact heq ▸ h
    | cons report rest ih =>
      intro done acc heq h
      have hget : reports[done.length]? = some report := by simp [heq]
      have hnext := ih (done ++ [report]) (recordReport acc (report, done.length)) (by simp [heq])
        (by simpa using h.step hget)
      simpa [List.zipIdx_cons] using hnext
  exact hfold reports [] _ rfl (.start hk reports)

/-! ## Phase 2 -/

/-- Phase 2 adds settles to applied reports and nothing else. -/
structure Marked (first results : List ReportResult) : Prop where
  applied : ∀ i : ℕ, (results[i]?).map (·.applied) = (first[i]?).map (·.applied)
  settled : ∀ result ∈ results, result.parentSettled = true → result.applied = true

theorem Marked.set {first results : List ReportResult} (h : Marked first results) {i : ℕ}
    {result : ReportResult} (hi : first[i]? = some result) (ha : result.applied = true) :
    Marked first (results.set i ⟨true, true⟩) := by
  refine ⟨fun j => ?_, fun r hr hs => ?_⟩
  · by_cases hij : i = j
    · subst hij
      have happ := h.applied i
      rw [hi, Option.map_some, ha] at happ
      obtain ⟨r, hr, _⟩ := Option.map_eq_some_iff.mp happ
      have hlt := (List.getElem?_eq_some_iff.mp hr).1
      rw [List.getElem?_set_self hlt, hi, Option.map_some, Option.map_some, ha]
    · rw [List.getElem?_set_ne hij]
      exact h.applied j
  · rcases List.mem_or_eq_of_mem_set hr with hr | rfl
    · exact h.settled r hr hs
    · rfl

theorem recordChildResults_marked {s : Store V} (hk : s.toCore.Keyed) (now : Millis)
    (reports : List (FlowChildReport V)) :
    Marked (recorded s reports).results (recordChildResults s now reports).1 := by
  have hrec := recorded_answered hk reports
  have hfold : ∀ (entries : List (JobId × Touch)) (acc : List ReportResult × Store V),
      acc.2.toCore.Keyed → (∀ entry ∈ entries, entry ∈ (recorded s reports).touched.entries) →
      Marked (recorded s reports).results acc.1 →
      Marked (recorded s reports).results (entries.foldl (settleTouched now reports) acc).1 := by
    intro entries
    induction entries with
    | nil => exact fun _ _ _ h => h
    | cons entry entries ih =>
      intro acc hk he h
      refine ih _ ((settleTouched_does now reports acc entry hk).keyed hk)
        (fun e hm => he e (by simp [hm])) ?_
      rcases settleTouched_results now reports acc entry hk with heq | ⟨i, heq, hindex, _⟩ <;>
        rw [heq]
      · exact h
      · have hget := JsMap.get?_eq_some.mpr (he entry (by simp))
        obtain ⟨result, hr, ha⟩ := hrec.touched entry.1 entry.2 i hget hindex
        exact h.set hr ha
  refine hfold _ ((recorded s reports).results, { s with toCore := (recorded s reports).core })
    hrec.keyed (fun _ h => h) ⟨fun _ => rfl, fun result hr hs => ?_⟩
  obtain ⟨i, hi⟩ := List.mem_iff_getElem?.mp hr
  rw [hrec.unsettled i result hi] at hs
  cases hs

/-! ## The answers of a batch -/

/-- The report at `i` was answered with `applied = true`. -/
def AppliedAt (results : List ReportResult) (i : ℕ) : Prop :=
  ∃ result, results[i]? = some result ∧ result.applied = true

theorem AppliedAt.recorded {s : Store V} (hk : s.toCore.Keyed) {now : Millis}
    {reports : List (FlowChildReport V)} {i : ℕ}
    (h : AppliedAt (recordChildResults s now reports).1 i) :
    AppliedAt (recorded s reports).results i := by
  obtain ⟨result, hr, ha⟩ := h
  have happ := (recordChildResults_marked hk now reports).applied i
  rw [hr, Option.map_some, ha] at happ
  exact Option.map_eq_some_iff.mp happ.symm

/-- A report applies only to a row that is pending before the batch, and only as the first report of
the row in the batch. -/
theorem recordChildResults_applied {s : Store V} (hk : s.toCore.Keyed) {now : Millis}
    {reports : List (FlowChildReport V)} {i : ℕ}
    (h : AppliedAt (recordChildResults s now reports).1 i) :
    ∃ report, reports[i]? = some report ∧ Waits s report.flowId report.childKey ∧
      First reports i report := by
  obtain ⟨result, hr, ha⟩ := h.recorded hk
  exact ((recorded_answered hk reports).applied i result hr ha).2

/-- Every other report is refused. -/
theorem recordChildResults_refused {s : Store V} (hk : s.toCore.Keyed) (now : Millis)
    {reports : List (FlowChildReport V)} {i : ℕ} {report : FlowChildReport V}
    (hr : reports[i]? = some report)
    (hn : ¬ (Waits s report.flowId report.childKey ∧ First reports i report)) :
    (recordChildResults s now reports).1[i]? = some ⟨false, false⟩ := by
  have hmarked := recordChildResults_marked hk now reports
  have hlt : i < (recorded s reports).results.length := by
    rw [(recorded_answered hk reports).length]
    exact (List.getElem?_eq_some_iff.mp hr).1
  obtain ⟨first, hfirst⟩ : ∃ first, (recorded s reports).results[i]? = some first :=
    ⟨_, List.getElem?_eq_getElem hlt⟩
  have happ := hmarked.applied i
  rw [hfirst, Option.map_some] at happ
  obtain ⟨⟨applied, settled⟩, hres, _⟩ := Option.map_eq_some_iff.mp happ
  have happlied : applied ≠ true := by
    rintro rfl
    obtain ⟨r, hr', hw, hf⟩ := recordChildResults_applied hk ⟨_, hres, rfl⟩
    cases hr.symm.trans hr'
    exact hn ⟨hw, hf⟩
  have hsettled : settled ≠ true := by
    rintro rfl
    exact happlied (hmarked.settled _ (List.mem_of_getElem? hres) rfl)
  rw [hres, Bool.eq_false_iff.mpr happlied, Bool.eq_false_iff.mpr hsettled]

/-- After a batch no row that it names is pending. -/
theorem recordChildResults_answered {s : Store V} (hk : s.toCore.Keyed) (now : Millis)
    {reports : List (FlowChildReport V)} {report : FlowChildReport V} (h : report ∈ reports) :
    ¬ Waits (recordChildResults s now reports).2 report.flowId report.childKey := by
  have hrec := recorded_answered hk reports
  obtain ⟨i, hi⟩ := List.mem_iff_getElem?.mp h
  have hlt := (List.getElem?_eq_some_iff.mp hi).1
  let I : View V → Prop := fun v => ¬ v.Waits report.childKey
  refine (settled_does hk now reports).view hrec.keyed report.flowId (I := I) ?_ (hrec.seen i report hlt hi)
  intro l v v' hl hstep _ hn hw
  exact hn (hstep.waits (fun ⟨_, _, _, _, hpark, _⟩ => by subst hpark; exact hl) hw)

/-! ## A batch without indices -/

/-- The key of the child whose failure would settle a touched flow. -/
def failedKey (reports : List (FlowChildReport V)) (touch : Touch) : Option String :=
  touch.firstAppliedFailed.bind fun i => (reports[i]?).map (·.childKey)

/-- Phase 1 with what phase 2 uses of it: the touched flows and their failed keys. -/
def recordPlain (acc : Core V × JsMap JobId (Option String)) (report : FlowChildReport V) :
    Core V × JsMap JobId (Option String) :=
  match acc.1.row? report.flowId report.childKey with
  | none => acc
  | some row =>
    if row.status ≠ .pending then acc
    else
      let failed := (acc.2.get? report.flowId).getD none
      (acc.1.applyReport row report,
        acc.2.set report.flowId
          (if report.outcome = .failed ∧ failed = none then some report.childKey else failed))

def settlePlain (now : Millis) (s : Store V) (entry : JobId × Option String) : Store V :=
  match s.jobs.get? entry.1 with
  | none => s
  | some parent =>
    match parent.flow with
    | none => s
    | some flow =>
      if parent.state ≠ .waitingChildren then s
      else
        match if flow.failFast then entry.2 else none with
        | some childKey => settleFailFast s now parent childKey
        | none => if flow.pending = 0 then makeRunnable s parent now else s

theorem recordPlain_idle {acc : Core V × JsMap JobId (Option String)} {report : FlowChildReport V}
    (h : ¬ (acc.1.view report.flowId).Waits report.childKey) : recordPlain acc report = acc := by
  unfold recordPlain
  split
  · rfl
  · rename_i row hrow
    rw [if_pos (fun hp => h ((row?_waits hrow).mpr hp))]

structure Plain (reports : List (FlowChildReport V)) (acc : RecordState V)
    (plain : Core V × JsMap JobId (Option String)) : Prop where
  core : plain.1 = acc.core
  touched : plain.2 = acc.touched.mapValues fun _ => failedKey reports
  recorded : Recorded reports acc

theorem Plain.step {reports : List (FlowChildReport V)} {acc : RecordState V}
    {plain : Core V × JsMap JobId (Option String)} (h : Plain reports acc plain) {n : ℕ}
    {report : FlowChildReport V} (hr : reports[n]? = some report) :
    Plain reports (recordReport acc (report, n)) (recordPlain plain report) := by
  have hrecorded := recordReport_recorded h.recorded (report, n) hr
  obtain ⟨core, touched⟩ := plain
  obtain rfl : core = acc.core := h.core
  have htouched : touched = acc.touched.mapValues fun _ => failedKey reports := h.touched
  rcases recordReport_cases acc report n with ⟨hn, heq⟩ | ⟨row, hrow, hp, heq⟩
  · rw [heq, recordPlain_idle hn]
    exact h
  · rw [heq] at hrecorded ⊢
    simp only [recordPlain, hrow, hp, ne_eq, not_true, if_false]
    refine ⟨rfl, ?_, hrecorded⟩
    have hold : (touched.get? report.flowId).getD none =
        failedKey reports ((acc.touched.get? report.flowId).getD ⟨n, none⟩) := by
      rw [htouched, JsMap.get?_mapValues]
      cases acc.touched.get? report.flowId <;> rfl
    have hnone : (touched.get? report.flowId).getD none = none ↔
        ((acc.touched.get? report.flowId).getD ⟨n, none⟩).firstAppliedFailed = none := by
      rw [hold, failedKey]
      cases hg : acc.touched.get? report.flowId with
      | none => simp
      | some touch =>
        cases hi : touch.firstAppliedFailed with
        | none => simp [hi]
        | some i =>
          obtain ⟨r, hri, _⟩ := h.recorded.touched _ touch hg i (.inr hi)
          simp [hi, hri]
    rw [touchReport, JsMap.mapValues_set, ← htouched]
    by_cases hf : report.outcome = .failed ∧ (touched.get? report.flowId).getD none = none
    · rw [if_pos hf, failedKey]
      simp only [if_pos (And.intro hf.1 (hnone.mp hf.2)), Option.bind_some, hr, Option.map_some]
    · have hf' : ¬ (report.outcome = .failed ∧
          ((acc.touched.get? report.flowId).getD ⟨n, none⟩).firstAppliedFailed = none) :=
        fun h' => hf ⟨h'.1, hnone.mpr h'.2⟩
      rw [if_neg hf, hold, failedKey, failedKey]
      simp only [if_neg hf']

theorem recorded_plain (s : Store V) (reports : List (FlowChildReport V)) :
    Plain reports (recorded s reports) (reports.foldl recordPlain (s.toCore, ∅)) := by
  have hfold : ∀ (rest done : List (FlowChildReport V)) (acc : RecordState V)
      (plain : Core V × JsMap JobId (Option String)), reports = done ++ rest →
      Plain reports acc plain →
      Plain reports ((rest.zipIdx done.length).foldl recordReport acc)
        (rest.foldl recordPlain plain) := by
    intro rest
    induction rest with
    | nil => exact fun _ _ _ _ h => h
    | cons report rest ih =>
      intro done acc plain heq h
      have hget : reports[done.length]? = some report := by simp [heq]
      have hnext := ih (done ++ [report]) _ _ (by simp [heq]) (h.step hget)
      simpa [List.zipIdx_cons] using hnext
  refine hfold reports [] _ _ rfl ⟨rfl, rfl, fun result hr => ?_, fun id touch ht => by cases ht⟩
  obtain ⟨_, _, rfl⟩ := List.mem_map.mp hr
  rfl

theorem settleTouched_store (now : Millis) (reports : List (FlowChildReport V))
    (acc : List ReportResult × Store V) (entry : JobId × Touch) :
    (settleTouched now reports acc entry).2 =
      settlePlain now acc.2 (entry.1, failedKey reports entry.2) := by
  obtain ⟨results, s⟩ := acc
  obtain ⟨flowId, touch⟩ := entry
  cases hj : s.jobs.get? flowId with
  | none => simp only [settleTouched, settlePlain, hj]
  | some parent =>
    cases hflow : parent.flow with
    | none => simp only [settleTouched, settlePlain, hj, hflow]
    | some flow =>
      simp only [settleTouched, settlePlain, failedKey, hj, hflow]
      split
      · rfl
      · cases flow.failFast with
        | false =>
          simp only [Bool.false_eq_true, if_false, Option.bind_none]
          split <;> rfl
        | true =>
          cases touch.firstAppliedFailed with
          | none =>
            simp only [if_true, Option.bind_none]
            split <;> rfl
          | some i =>
            cases hr : reports[i]? with
            | none =>
              simp only [if_true, Option.bind_some, hr, Option.map_none]
              split <;> rfl
            | some report => simp only [if_true, Option.bind_some, hr, Option.map_some]

/-- The store after a batch, computed without indices. -/
theorem recordChildResults_store (s : Store V) (now : Millis) (reports : List (FlowChildReport V)) :
    (recordChildResults s now reports).2 =
      (reports.foldl recordPlain (s.toCore, ∅)).2.entries.foldl (settlePlain now)
        { s with toCore := (reports.foldl recordPlain (s.toCore, ∅)).1 } := by
  have h := recorded_plain s reports
  have hfold : ∀ (entries : List (JobId × Touch)) (acc : List ReportResult × Store V),
      (entries.foldl (settleTouched now reports) acc).2 =
        (entries.map fun e => (e.1, failedKey reports e.2)).foldl (settlePlain now) acc.2 := by
    intro entries
    induction entries with
    | nil => exact fun _ => rfl
    | cons entry entries ih =>
      intro acc
      rw [List.foldl_cons, ih, settleTouched_store, List.map_cons, List.foldl_cons]
  rw [h.core, h.touched]
  exact hfold (recorded s reports).touched.entries
    ((recorded s reports).results, { s with toCore := (recorded s reports).core })

/-- A report whose row is not pending, or named before in the batch, makes no difference. -/
theorem recordChildResults_idle {s : Store V} (hk : s.toCore.Keyed) (now : Millis)
    (before after : List (FlowChildReport V)) {report : FlowChildReport V}
    (hn : ¬ (Waits s report.flowId report.childKey ∧
      First (before ++ report :: after) before.length report)) :
    (recordChildResults s now (before ++ report :: after)).2 =
      (recordChildResults s now (before ++ after)).2 := by
  have hrec := recorded_answered hk before
  have hidle : ¬ ((before.foldl recordPlain (s.toCore, ∅)).1.view report.flowId).Waits
      report.childKey := by
    rw [(recorded_plain s before).core]
    refine fun hw => hn ⟨hrec.waits _ _ hw, fun j hj r hr => ?_⟩
    rw [List.getElem?_append_left hj] at hr
    rintro ⟨hf, hc⟩
    exact hrec.seen j r hj hr (by rw [hf, hc]; exact hw)
  have hsame : (before ++ report :: after).foldl recordPlain (s.toCore, ∅) =
      (before ++ after).foldl recordPlain (s.toCore, ∅) := by
    rw [List.foldl_append, List.foldl_append, List.foldl_cons, recordPlain_idle hidle]
  rw [recordChildResults_store, recordChildResults_store, hsame]

end EffectMq.Memory
