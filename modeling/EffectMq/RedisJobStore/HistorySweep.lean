import EffectMq.RedisJobStore.Retention
import EffectMq.RedisJobStore.FlowScripts

/-! # The history sweep of the Redis driver

The loop pages through the finished set of a state by rank and deletes as it goes. What a page keeps
stays in front of the next offset, what it deletes leaves the set, so the next page starts at the first
member that was not looked at.
-/

namespace EffectMq.Redis
set_option autoImplicit false
set_option maxHeartbeats 250000

variable {V : Type}

/-! ## The loop -/

/-- The loop over one state, in so many pages; it also returns the members it looked at. -/
def sweepStateLoop (state : TerminalState) (ttl : Option JsNumber) (now : ℤ) :
    ℕ → ℕ → Keyspace V → Option (List (JobId × ℤ) × Keyspace V)
  | 0, _, _ => none
  | pages + 1, offset, ks =>
    let batch := sweepBatch ks state 200 offset now
    let (page, ks) := sweepState ks state ttl 200 offset now
    if page.scanned < 200 then some (batch, ks)
    else
      (sweepStateLoop state ttl now pages (offset + (page.scanned - page.deleted)) ks).map
        fun (visited, ks) => (batch ++ visited, ks)

def sweepStates (ttlByState : HistoryTtlByState) (now : ℤ) (pages : ℕ) :
    List TerminalState → Keyspace V → Option (List (List (JobId × ℤ)) × Keyspace V)
  | [], ks => some ([], ks)
  | state :: states, ks =>
    (sweepStateLoop state (ttlByState.of state) now pages 0 ks).bind fun (visited, ks) =>
      (sweepStates ttlByState now pages states ks).map fun (rest, ks) => (visited :: rest, ks)

/-- The states in the order of the driver, each in at most so many pages. -/
def sweepHistory (ttlByState : HistoryTtlByState) (now : ℤ) (pages : ℕ) (ks : Keyspace V) :
    Option (List (List (JobId × ℤ)) × Keyspace V) :=
  sweepStates ttlByState now pages [.completed, .failed, .cancelled] ks

/-! ## What the finished sets list -/

/-- `p:finished:<state>` lists the jobs of that state; a member without a hash is an orphan. -/
structure Keyspace.FinishedIndexed (ks : Keyspace V) : Prop where
  member : ∀ (state : TerminalState) (id : JobId) (t : ℤ) (job : JobHash V),
    (ks.finished state.toJobState).score? id = some t → ks.jobs.get? id = some job →
    job.state = state.toJobState ∧ job.finishedAt = some t
  listed : ∀ (state : TerminalState) (id : JobId) (job : JobHash V),
    ks.jobs.get? id = some job → job.state = state.toJobState →
    ∃ t, (ks.finished state.toJobState).score? id = some t

/-- The members the sweep of a state is to look at. -/
def Keyspace.due (ks : Keyspace V) (state : TerminalState) (now : ℤ) : List (JobId × ℤ) :=
  (ks.finished state.toJobState).withScores.filter fun member => decide (member.2 ≤ now)

def Keyspace.history (ks : Keyspace V) (id : JobId) : Option Aging :=
  (ks.jobs.get? id).bind fun job =>
    job.state.terminal?.bind fun state =>
      job.finishedAt.map fun t => ⟨state, t, job.keep, owesCascades ks id⟩

/-- Whether the sweep takes a member. -/
def goes (ks : Keyspace V) (state : TerminalState) (ttl : Option JsNumber) (now : ℤ)
    (member : JobId × ℤ) : Bool :=
  match ks.jobs.get? member.1 with
  | none => true
  | some job =>
    ((cutoffAge ttl job.keep state).any fun age => age.reached member.2 now) &&
      !owesCascades ks member.1

/-- The keyspace without these members of the set of a state, and without their jobs. -/
structure Without (state : TerminalState) (ks ks' : Keyspace V) (gone : List JobId) : Prop where
  jobs : ∀ id, ks'.jobs.get? id = if id ∈ gone then none else ks.jobs.get? id
  owes : ∀ id, owesCascades ks' id = owesCascades ks id
  finished : ∀ st id, (ks'.finished st).score? id =
    if st = state.toJobState ∧ id ∈ gone then none else (ks.finished st).score? id

namespace Without

variable {state : TerminalState} {ks ks' ks'' : Keyspace V} {gone gone' : List JobId}

theorem refl (state : TerminalState) (ks : Keyspace V) : Without state ks ks [] :=
  ⟨fun _ => by simp, fun _ => rfl, fun _ _ => by simp⟩

theorem trans (h : Without state ks ks' gone) (h' : Without state ks' ks'' gone') :
    Without state ks ks'' (gone ++ gone') where
  jobs id := by
    rw [h'.jobs, h.jobs]
    by_cases hid : id ∈ gone <;> simp [hid]
  owes id := (h'.owes id).trans (h.owes id)
  finished st id := by
    rw [h'.finished, h.finished]
    by_cases hst : st = state.toJobState <;> by_cases hid : id ∈ gone <;> simp [hst, hid]

theorem indexed (h : Without state ks ks' gone) (hindexed : ks.FinishedIndexed) :
    ks'.FinishedIndexed where
  member st id t job hscore hjob := by
    rw [h.finished] at hscore
    rw [h.jobs] at hjob
    by_cases hid : id ∈ gone
    · rw [if_pos hid] at hjob
      cases hjob
    · rw [if_neg hid] at hjob
      rw [if_neg fun hgone => hid hgone.2] at hscore
      exact hindexed.member st id t job hscore hjob
  listed st id job hjob hst := by
    rw [h.jobs] at hjob
    by_cases hid : id ∈ gone
    · rw [if_pos hid] at hjob
      cases hjob
    · rw [if_neg hid] at hjob
      rw [h.finished, if_neg fun hgone => hid hgone.2]
      exact hindexed.listed st id job hjob hst

theorem due (h : Without state ks ks' gone) (now : ℤ) :
    ks'.due state now = (ks.due state now).filter fun member => decide (member.1 ∉ gone) := by
  have hgone : ∀ id, (ks'.finished state.toJobState).score? id =
      if id ∈ gone then none else (ks.finished state.toJobState).score? id := by
    intro id
    rw [h.finished]
    simp
  have hscores := ZSet.withScores_of_score? hgone
  rw [Keyspace.due, hscores, List.filter_filter, Keyspace.due, List.filter_filter]
  apply List.filter_congr
  intro member _
  exact Bool.and_comm ..

theorem due_other (h : Without state ks ks' gone) {st : TerminalState} (hst : st ≠ state) (now : ℤ) :
    ks'.due st now = ks.due st now := by
  have hne : st.toJobState ≠ state.toJobState := by
    intro heq
    cases st <;> cases state <;> first | exact hst rfl | cases heq
  have hsame : ks'.finished st.toJobState = ks.finished st.toJobState := by
    apply ZSet.ext_score?
    intro id
    rw [h.finished, if_neg fun hgone => hne hgone.1]
  rw [Keyspace.due, hsame, Keyspace.due]

theorem goes (h : Without state ks ks' gone) (st : TerminalState) (ttl : Option JsNumber) (now : ℤ)
    {member : JobId × ℤ} (hmember : member.1 ∉ gone) :
    Redis.goes ks' st ttl now member = Redis.goes ks st ttl now member := by
  rw [Redis.goes, h.jobs, if_neg hmember, h.owes, Redis.goes]

theorem history (h : Without state ks ks' gone) (id : JobId) :
    ks'.history id = if id ∈ gone then none else ks.history id := by
  rw [Keyspace.history, h.jobs, h.owes]
  split <;> rfl

end Without

/-! ## One page -/

theorem deleteJob_without {ks : Keyspace V} {id : JobId} {job : JobHash V} {state : TerminalState}
    (hjob : ks.jobs.get? id = some job) (hstate : job.state = state.toJobState)
    (howed : owesCascades ks id = false) : Without state ks (deleteJob ks id) [id] where
  jobs id' := by
    rw [deleteJob_jobs]
    simp
  owes := deleteJob_owesCascades howed
  finished st id' := by
    obtain ⟨_, _, _, hdelete, -⟩ := deleteJob_eq hjob
    rw [hdelete]
    simp only [unlisted, upd_apply, hstate, List.mem_singleton]
    by_cases hst : st = state.toJobState <;> by_cases hid : id' = id <;> simp [hst, hid]

theorem sweepMember_spec {ks : Keyspace V} (hindexed : ks.FinishedIndexed) (state : TerminalState)
    (ttl : Option JsNumber) (now : ℤ) (page : SweepPage) {member : JobId × ℤ}
    (hmember : (ks.finished state.toJobState).score? member.1 = some member.2) :
    ∃ ks', sweepMember state ttl now (page, ks) member =
        (⟨page.scanned + 1, page.deleted + if goes ks state ttl now member then 1 else 0⟩, ks') ∧
      Without state ks ks' (if goes ks state ttl now member then [member.1] else []) := by
  unfold sweepMember goes
  cases hjob : ks.jobs.get? member.1 with
  | none =>
    refine ⟨_, by simp only [hjob]; rfl, ?_⟩
    rw [if_pos rfl]
    refine ⟨fun id => ?_, fun _ => rfl, fun st id => ?_⟩
    · by_cases hid : id = member.1
      · simp [hid, hjob]
      · simp [hid]
    · simp only [upd_apply, List.mem_singleton]
      by_cases hst : st = state.toJobState <;> by_cases hid : id = member.1 <;> simp [hst, hid]
  | some job =>
    obtain ⟨hstate, _⟩ := hindexed.member state member.1 member.2 job hmember hjob
    cases hage : cutoffAge ttl job.keep state with
    | none =>
      refine ⟨ks, by simp only [hjob, hage]; rfl, ?_⟩
      simp only [hage]
      exact .refl state ks
    | some age =>
      by_cases hdue : age.reached member.2 now = true ∧ owesCascades ks member.1 = false
      · refine ⟨deleteJob ks member.1, ?_, ?_⟩
        · simp only [hjob, hage, Option.any_some, hdue.1, hdue.2]
          rfl
        · simp only [hage, Option.any_some, hdue.1, hdue.2]
          exact deleteJob_without hjob hstate hdue.2
      · have hstays : (age.reached member.2 now && !owesCascades ks member.1) = false := by
          cases hreached : age.reached member.2 now <;> cases howed : owesCascades ks member.1 <;>
            simp_all
        refine ⟨ks, ?_, ?_⟩
        · simp only [hjob, hage, if_neg hdue, Option.any_some, hstays]
          rfl
        · simp only [hage, Option.any_some, hstays]
          exact .refl state ks

/-- The ids of the members a page deletes. -/
def goneOf (ks : Keyspace V) (state : TerminalState) (ttl : Option JsNumber) (now : ℤ)
    (members : List (JobId × ℤ)) : List JobId :=
  (members.filter (goes ks state ttl now)).map Prod.fst

theorem goneOf_append (ks : Keyspace V) (state : TerminalState) (ttl : Option JsNumber) (now : ℤ)
    (members members' : List (JobId × ℤ)) :
    goneOf ks state ttl now (members ++ members') =
      goneOf ks state ttl now members ++ goneOf ks state ttl now members' := by
  rw [goneOf, List.filter_append, List.map_append]
  rfl

theorem Without.goneOf {state : TerminalState} {ks ks' : Keyspace V} {gone : List JobId}
    (h : Without state ks ks' gone) (ttl : Option JsNumber) (now : ℤ) {members : List (JobId × ℤ)}
    (hmembers : ∀ member ∈ members, member.1 ∉ gone) :
    Redis.goneOf ks' state ttl now members = Redis.goneOf ks state ttl now members := by
  rw [Redis.goneOf, List.filter_congr fun member hmember => h.goes state ttl now (hmembers member hmember)]
  rfl

theorem foldl_sweepMember {ks : Keyspace V} (hindexed : ks.FinishedIndexed) (state : TerminalState)
    (ttl : Option JsNumber) (now : ℤ) {batch : List (JobId × ℤ)} (hnodup : (batch.map Prod.fst).Nodup)
    (hbatch : ∀ member ∈ batch, (ks.finished state.toJobState).score? member.1 = some member.2)
    (page : SweepPage) :
    ∃ ks', batch.foldl (sweepMember state ttl now) (page, ks) =
        (⟨page.scanned + batch.length, page.deleted + (goneOf ks state ttl now batch).length⟩, ks') ∧
      Without state ks ks' (goneOf ks state ttl now batch) := by
  induction batch generalizing ks page with
  | nil => exact ⟨ks, rfl, .refl state ks⟩
  | cons member batch ih =>
    rw [List.map_cons, List.nodup_cons] at hnodup
    obtain ⟨ks₁, hstep, hfirst⟩ := sweepMember_spec hindexed state ttl now page
      (hbatch member List.mem_cons_self)
    have hother : ∀ m ∈ batch, m.1 ∉ if goes ks state ttl now member then [member.1] else [] := by
      intro m hm hgone
      split at hgone
      · rw [List.mem_singleton] at hgone
        exact hnodup.1 (hgone ▸ List.mem_map_of_mem hm)
      · cases hgone
    have hrest : ∀ m ∈ batch, (ks₁.finished state.toJobState).score? m.1 = some m.2 := by
      intro m hm
      rw [hfirst.finished, if_neg fun hgone => hother m hm hgone.2]
      exact hbatch m (List.mem_cons_of_mem member hm)
    obtain ⟨ks', hfold, hwithout⟩ := ih (hfirst.indexed hindexed) hnodup.2 hrest
      ⟨page.scanned + 1, page.deleted + if goes ks state ttl now member then 1 else 0⟩
    have hgone := hfirst.goneOf ttl now hother
    have hall : goneOf ks state ttl now (member :: batch) =
        (if goes ks state ttl now member then [member.1] else []) ++ goneOf ks state ttl now batch := by
      rw [goneOf, List.filter_cons]
      split <;> rfl
    refine ⟨ks', ?_, ?_⟩
    · rw [List.foldl_cons, hstep, hfold, hgone, hall, List.length_cons, List.length_append]
      have hscanned : page.scanned + 1 + batch.length = page.scanned + (batch.length + 1) := by omega
      have hone : (if goes ks state ttl now member then [member.1] else []).length =
          if goes ks state ttl now member then 1 else 0 := by split <;> rfl
      rw [hone]
      dsimp only
      rw [hscanned, Nat.add_assoc]
    · rw [hall, ← hgone]
      exact hfirst.trans hwithout

/-! ## All pages -/

theorem nodup_due (ks : Keyspace V) (state : TerminalState) (now : ℤ) :
    ((ks.due state now).map Prod.fst).Nodup :=
  (ks.finished state.toJobState).nodup_withScores.sublist (List.filter_sublist.map _)

theorem score?_of_due {ks : Keyspace V} {state : TerminalState} {now : ℤ} {member : JobId × ℤ}
    (h : member ∈ ks.due state now) :
    (ks.finished state.toJobState).score? member.1 = some member.2 :=
  ZSet.mem_withScores.mp (List.mem_filter.mp h).1

theorem mem_goneOf {ks : Keyspace V} {state : TerminalState} {ttl : Option JsNumber} {now : ℤ}
    {members : List (JobId × ℤ)} {id : JobId} :
    id ∈ goneOf ks state ttl now members ↔ ∃ t, (id, t) ∈ members ∧ goes ks state ttl now (id, t) = true := by
  rw [goneOf, List.mem_map]
  constructor
  · rintro ⟨member, hmember, rfl⟩
    exact ⟨member.2, List.mem_filter.mp hmember⟩
  · rintro ⟨t, hmember⟩
    exact ⟨(id, t), List.mem_filter.mpr hmember, rfl⟩

/-- The sweep of a page takes out of the set what the page deletes: in front of the next offset is
what it keeps. -/
theorem filter_goneOf (ks : Keyspace V) (state : TerminalState) (ttl : Option JsNumber) (now : ℤ)
    {front batch tail : List (JobId × ℤ)} (hnodup : ((front ++ (batch ++ tail)).map Prod.fst).Nodup) :
    (front ++ (batch ++ tail)).filter
        (fun member => decide (member.1 ∉ goneOf ks state ttl now batch)) =
      (front ++ batch.filter fun member => !goes ks state ttl now member) ++ tail := by
  rw [List.map_append, List.map_append, List.nodup_append] at hnodup
  obtain ⟨_, hback, hfront⟩ := hnodup
  rw [List.nodup_append] at hback
  obtain ⟨hbatch, _, htail⟩ := hback
  have hgone : ∀ id ∈ goneOf ks state ttl now batch, id ∈ batch.map Prod.fst := fun id hid => by
    obtain ⟨t, ht, _⟩ := mem_goneOf.mp hid
    exact List.mem_map_of_mem ht
  rw [List.filter_append, List.filter_append, List.append_assoc]
  congr 1
  · rw [List.filter_eq_self]
    intro member hmember
    refine decide_eq_true fun hid => ?_
    exact hfront _ (List.mem_map_of_mem hmember) _ (List.mem_append_left _ (hgone _ hid)) rfl
  · congr 1
    · apply List.filter_congr
      intro member hmember
      have hiff : member.1 ∈ goneOf ks state ttl now batch ↔ goes ks state ttl now member = true := by
        rw [mem_goneOf]
        constructor
        · rintro ⟨t, ht, hgoes⟩
          have heq : (member.1, t) = member := List.inj_on_of_nodup_map hbatch ht hmember rfl
          exact heq ▸ hgoes
        · intro hgoes
          exact ⟨member.2, hmember, hgoes⟩
      cases hgoes : goes ks state ttl now member <;> simp [hiff, hgoes]
    · rw [List.filter_eq_self]
      intro member hmember
      refine decide_eq_true fun hid => ?_
      exact htail _ (hgone _ hid) _ (List.mem_map_of_mem hmember) rfl

/-- From an offset at which `rest` begins, the loop looks at `rest`, in order, and at nothing else. -/
theorem sweepStateLoop_spec (state : TerminalState) (ttl : Option JsNumber) (now : ℤ)
    {ks : Keyspace V} (hindexed : ks.FinishedIndexed) {front rest : List (JobId × ℤ)}
    (hdue : ks.due state now = front ++ rest) :
    ∃ pages ks', sweepStateLoop state ttl now pages front.length ks = some (rest, ks') ∧
      Without state ks ks' (goneOf ks state ttl now rest) := by
  induction hn : rest.length using Nat.strong_induction_on generalizing ks front rest with
  | _ n ih =>
    have hbatch : sweepBatch ks state 200 front.length now = rest.take 200 := by
      change ((ks.due state now).drop front.length).take 200 = _
      rw [hdue, List.drop_left]
    have hsplit : front ++ (rest.take 200 ++ rest.drop 200) = ks.due state now := by
      rw [List.take_append_drop, hdue]
    have hnodup := nodup_due ks state now
    rw [← hsplit] at hnodup
    have hmem : ∀ member ∈ rest.take 200, member ∈ ks.due state now := fun member hmember =>
      hsplit ▸ List.mem_append_right front (List.mem_append_left _ hmember)
    have hbatchNodup : ((rest.take 200).map Prod.fst).Nodup := by
      rw [List.map_append, List.map_append] at hnodup
      exact hnodup.of_append_right.of_append_left
    obtain ⟨ks₁, hfold, hwithout⟩ := foldl_sweepMember hindexed state ttl now hbatchNodup
      (fun member hmember => score?_of_due (hmem member hmember)) ⟨0, 0⟩
    have hpage : sweepState ks state ttl 200 front.length now =
        (⟨(rest.take 200).length, (goneOf ks state ttl now (rest.take 200)).length⟩, ks₁) := by
      rw [sweepState, hbatch, hfold, Nat.zero_add, Nat.zero_add]
    by_cases hshort : rest.length < 200
    · have hall : rest.take 200 = rest := List.take_of_length_le hshort.le
      refine ⟨1, ks₁, ?_, ?_⟩
      · rw [sweepStateLoop, hpage, hbatch, hall]
        exact if_pos hshort
      · rw [hall] at hwithout
        exact hwithout
    · -- what the page keeps joins the front
      have hdue₁ := hwithout.due now
      rw [← hsplit, filter_goneOf ks state ttl now hnodup] at hdue₁
      have hoffset : front.length +
          ((rest.take 200).length - (goneOf ks state ttl now (rest.take 200)).length) =
            (front ++ (rest.take 200).filter fun member => !goes ks state ttl now member).length := by
        have hcount := List.length_eq_length_filter_add (l := rest.take 200)
          (goes ks state ttl now)
        rw [List.length_append, goneOf, List.length_map]
        omega
      have hlength : (rest.drop 200).length < n := by
        rw [List.length_drop]
        omega
      obtain ⟨pages, ks', hloop, hlast⟩ := ih _ hlength (hwithout.indexed hindexed) hdue₁ rfl
      have hother : ∀ member ∈ rest.drop 200,
          member.1 ∉ goneOf ks state ttl now (rest.take 200) := by
        intro member hmember hgone
        obtain ⟨t, ht, _⟩ := mem_goneOf.mp hgone
        rw [List.map_append, List.map_append] at hnodup
        exact (List.nodup_append.mp hnodup.of_append_right).2.2 _ (List.mem_map_of_mem ht) _
          (List.mem_map_of_mem hmember) rfl
      rw [hwithout.goneOf ttl now hother] at hlast
      refine ⟨pages + 1, ks', ?_, ?_⟩
      · rw [sweepStateLoop, hpage, hbatch]
        dsimp only
        rw [if_neg (by rw [List.length_take]; omega), hoffset, hloop, Option.map_some,
          List.take_append_drop]
      · have hboth := hwithout.trans hlast
        rw [← goneOf_append, List.take_append_drop] at hboth
        exact hboth

theorem sweepStateLoop_mono {state : TerminalState} {ttl : Option JsNumber} {now : ℤ}
    {pages pages' offset : ℕ} (hle : pages ≤ pages') {ks : Keyspace V}
    {result : List (JobId × ℤ) × Keyspace V}
    (h : sweepStateLoop state ttl now pages offset ks = some result) :
    sweepStateLoop state ttl now pages' offset ks = some result := by
  induction pages generalizing pages' offset ks result with
  | zero => cases h
  | succ pages ih =>
    obtain ⟨more, rfl⟩ : ∃ more, pages' = more + 1 := ⟨pages' - 1, by omega⟩
    rw [sweepStateLoop] at h ⊢
    dsimp only at h ⊢
    split at h
    · rename_i hshort
      rw [if_pos hshort]
      exact h
    · rename_i hfull
      obtain ⟨rest, hrest, hresult⟩ := Option.map_eq_some_iff.mp h
      rw [if_neg hfull, ih (by omega) hrest, Option.map_some, hresult]

theorem sweepStates_mono {ttlByState : HistoryTtlByState} {now : ℤ} {pages pages' : ℕ}
    (hle : pages ≤ pages') {states : List TerminalState} {ks : Keyspace V}
    {result : List (List (JobId × ℤ)) × Keyspace V}
    (h : sweepStates ttlByState now pages states ks = some result) :
    sweepStates ttlByState now pages' states ks = some result := by
  induction states generalizing ks result with
  | nil => exact h
  | cons state states ih =>
    rw [sweepStates] at h ⊢
    obtain ⟨⟨visited, ks₁⟩, hfirst, hrest⟩ := Option.bind_eq_some_iff.mp h
    obtain ⟨rest, hrest, hresult⟩ := Option.map_eq_some_iff.mp hrest
    rw [sweepStateLoop_mono hle hfirst, Option.bind_some]
    dsimp only
    rw [ih hrest, Option.map_some]
    exact congrArg some hresult

/-! ## The jobs that are gone -/

theorem keepPolicyFor_ageMs (keep : KeepPolicy) (state : TerminalState) :
    (keepPolicyFor keep state).bind (·.ageMs) = (keep.governing state).bind (·.ageMs) := by
  have hstored : keep.governing state = keepPolicyFor keep state ∨ _ := governing_of_stored rfl
  rcases hstored with heq | ⟨hnone, hbare⟩
  · rw [heq]
  · rw [hnone, hbare]
    rfl

/-- The script skips an age that is no number, which then is no bound anyway. -/
theorem cutoffAge_any {job : Aging} (hown : ∀ age, job.ownAge = some age → age.nonnegative = true)
    (ttl : Option JsNumber) (now : ℤ) :
    ((cutoffAge ttl job.keep job.state).any fun age => age.reached job.finishedAt now) =
      (strictest job.ownAge ttl).any fun age => age.reached job.finishedAt now := by
  have hage : ((job.keep.bind (keepPolicyFor · job.state)).bind (·.ageMs)) = job.ownAge := by
    rw [Aging.ownAge]
    cases job.keep with
    | none => rfl
    | some keep => exact keepPolicyFor_ageMs keep job.state
  unfold cutoffAge
  rw [hage]
  cases howned : job.ownAge with
  | none => cases ttl <;> rfl
  | some age =>
    have hnonnegative := hown age howned
    cases age with
    | finite q => cases ttl <;> rfl
    | posInf =>
      cases ttl with
      | none => rfl
      | some ttl => cases ttl <;> rfl
    | nan =>
      cases ttl with
      | none => rfl
      | some ttl => cases ttl <;> rfl
    | negInf => cases hnonnegative

/-- The jobs of some states that expire. -/
def ExpiredIn (states : List TerminalState) (history : JobId → Option Aging)
    (ttlByState : HistoryTtlByState) (now : ℤ) (id : JobId) : Prop :=
  ∃ job, history id = some job ∧ job.state ∈ states ∧ job.expired ttlByState now = true

theorem terminal?_eq_some {state : JobState} {t : TerminalState} :
    state.terminal? = some t ↔ state = t.toJobState := by
  cases state <;> cases t <;> simp [JobState.terminal?, TerminalState.toJobState]

theorem mem_goneOf_due {ks : Keyspace V} (hindexed : ks.FinishedIndexed)
    {ttlByState : HistoryTtlByState} (hbounds : NonnegativeBounds ks.history ttlByState) (now : ℤ)
    (state : TerminalState) {id : JobId} {job : JobHash V} (hjob : ks.jobs.get? id = some job) :
    id ∈ goneOf ks state (ttlByState.of state) now (ks.due state now) ↔
      ExpiredIn [state] ks.history ttlByState now id := by
  rw [mem_goneOf]
  constructor
  · rintro ⟨t, hdue, hgoes⟩
    obtain ⟨hstate, ht⟩ := hindexed.member state id t job (score?_of_due hdue) hjob
    have hhistory : ks.history id = some ⟨state, t, job.keep, owesCascades ks id⟩ := by
      rw [Keyspace.history, hjob, Option.bind_some, terminal?_eq_some.mpr hstate, Option.bind_some, ht]
      rfl
    refine ⟨_, hhistory, List.mem_singleton_self _, ?_⟩
    rw [goes] at hgoes
    simp only [hjob] at hgoes
    obtain ⟨hcutoff, howed⟩ := (Bool.and_eq_true _ _).mp hgoes
    have hany := cutoffAge_any (fun age => hbounds.ages id _ age hhistory) (ttlByState.of state) now
    rw [Aging.expired, Bool.and_eq_true]
    exact ⟨howed, hany.symm.trans hcutoff⟩
  · rintro ⟨aging, hhistory, hin, hexpired⟩
    have hfinished := hbounds.finished hhistory hexpired
    have hages := fun age => hbounds.ages id _ age hhistory
    rw [Keyspace.history, hjob, Option.bind_some] at hhistory
    obtain ⟨st, hst, hhistory⟩ := Option.bind_eq_some_iff.mp hhistory
    obtain ⟨t, ht, rfl⟩ := Option.map_eq_some_iff.mp hhistory
    obtain rfl : st = state := List.mem_singleton.mp hin
    obtain ⟨t', hscore⟩ := hindexed.listed st id job hjob (terminal?_eq_some.mp hst)
    obtain ⟨_, ht'⟩ := hindexed.member st id t' job hscore hjob
    obtain rfl : t = t' := Option.some.inj (ht.symm.trans ht')
    refine ⟨t, List.mem_filter.mpr ⟨ZSet.mem_withScores.mpr hscore, decide_eq_true hfinished⟩, ?_⟩
    obtain ⟨howed, hany⟩ := (Bool.and_eq_true _ _).mp hexpired
    rw [goes]
    simp only [hjob]
    rw [Bool.and_eq_true]
    exact ⟨(cutoffAge_any hages (ttlByState.of st) now).trans hany, howed⟩

theorem Without.prunes {ks ks' : Keyspace V} (hindexed : ks.FinishedIndexed)
    {ttlByState : HistoryTtlByState} (hbounds : NonnegativeBounds ks.history ttlByState) {now : ℤ}
    {state : TerminalState}
    (h : Without state ks ks'
      (Redis.goneOf ks state (ttlByState.of state) now (ks.due state now))) :
    Pruned ks.jobs.get? ks'.jobs.get? (ExpiredIn [state] ks.history ttlByState now) := by
  intro id
  cases hjob : ks.jobs.get? id with
  | none =>
    have hnone : ks'.jobs.get? id = none := by
      rw [h.jobs, hjob, ite_self]
    exact ⟨fun _ => hnone, fun _ => hnone⟩
  | some job =>
    rw [← mem_goneOf_due hindexed hbounds now state hjob, h.jobs, hjob]
    exact ⟨fun hgone => if_pos hgone, fun hstays => if_neg hstays⟩

/-- The sweep of one state leaves the jobs of the others. -/
theorem Without.expiredIn {ks ks' : Keyspace V} (hindexed : ks.FinishedIndexed)
    {ttlByState : HistoryTtlByState} {now : ℤ} {state : TerminalState}
    (h : Without state ks ks'
      (Redis.goneOf ks state (ttlByState.of state) now (ks.due state now)))
    {states : List TerminalState} (hstates : state ∉ states) (id : JobId) :
    ExpiredIn states ks'.history ttlByState now id ↔ ExpiredIn states ks.history ttlByState now id := by
  have hiff : ∀ aging, aging.state ∈ states →
      (ks'.history id = some aging ↔ ks.history id = some aging) := by
    intro aging hin
    rw [h.history]
    split
    · rename_i hgone
      constructor
      · intro hnone
        cases hnone
      · intro hhistory
        rw [Keyspace.history] at hhistory
        obtain ⟨job, hjob, hhistory⟩ := Option.bind_eq_some_iff.mp hhistory
        obtain ⟨st, hst, hhistory⟩ := Option.bind_eq_some_iff.mp hhistory
        obtain ⟨t, _, rfl⟩ := Option.map_eq_some_iff.mp hhistory
        obtain ⟨t', hdue, _⟩ := mem_goneOf.mp hgone
        obtain ⟨hstate, _⟩ := hindexed.member state id t' job (score?_of_due hdue) hjob
        have heq := hst.symm.trans (terminal?_eq_some.mpr hstate)
        exact absurd (Option.some.inj heq ▸ hin) hstates
    · exact Iff.rfl
  constructor
  · rintro ⟨aging, hhistory, hin, hexpired⟩
    exact ⟨aging, (hiff aging hin).mp hhistory, hin, hexpired⟩
  · rintro ⟨aging, hhistory, hin, hexpired⟩
    exact ⟨aging, (hiff aging hin).mpr hhistory, hin, hexpired⟩

theorem Without.bounds {state : TerminalState} {ks ks' : Keyspace V} {gone : List JobId}
    (h : Without state ks ks' gone) {ttlByState : HistoryTtlByState}
    (hbounds : NonnegativeBounds ks.history ttlByState) :
    NonnegativeBounds ks'.history ttlByState where
  ages id job age hhistory := by
    rw [h.history] at hhistory
    split at hhistory
    · cases hhistory
    · exact hbounds.ages id job age hhistory
  ceilings := hbounds.ceilings

theorem sweepStates_prunes {ttlByState : HistoryTtlByState} (now : ℤ) {states : List TerminalState}
    (hnodup : states.Nodup) {ks : Keyspace V} (hindexed : ks.FinishedIndexed)
    (hbounds : NonnegativeBounds ks.history ttlByState) :
    ∃ pages ks', sweepStates ttlByState now pages states ks =
        some (states.map fun state => ks.due state now, ks') ∧
      Pruned ks.jobs.get? ks'.jobs.get? (ExpiredIn states ks.history ttlByState now) := by
  induction states generalizing ks with
  | nil =>
    refine ⟨0, ks, rfl, Pruned.refl_of fun id => ?_⟩
    rintro ⟨_, _, hin, _⟩
    cases hin
  | cons state states ih =>
    rw [List.nodup_cons] at hnodup
    have hstart : ks.due state now = [] ++ ks.due state now := rfl
    obtain ⟨pages, ks₁, hloop, hwithout⟩ :=
      sweepStateLoop_spec state (ttlByState.of state) now hindexed hstart
    obtain ⟨pages', ks', hstates, hpruned⟩ :=
      ih hnodup.2 (hwithout.indexed hindexed) (hwithout.bounds hbounds)
    have hdue : (states.map fun st => ks₁.due st now) = states.map fun st => ks.due st now := by
      apply List.map_congr_left
      intro st hst
      exact hwithout.due_other (fun heq => hnodup.1 (heq ▸ hst)) now
    have hfirst := sweepStateLoop_mono (le_max_left pages pages') hloop
    rw [List.length_nil] at hfirst
    refine ⟨max pages pages', ks', ?_, ?_⟩
    · rw [sweepStates, hfirst, Option.bind_some]
      dsimp only
      rw [sweepStates_mono (le_max_right ..) hstates, Option.map_some, hdue, List.map_cons]
    · refine ((hwithout.prunes hindexed hbounds).trans hpruned).congr fun id => ?_
      rw [hwithout.expiredIn hindexed hnodup.1]
      constructor
      · rintro ⟨aging, hhistory, hin, hexpired⟩
        rcases List.mem_cons.mp hin with heq | hin
        · exact .inl ⟨aging, hhistory, heq ▸ List.mem_singleton_self _, hexpired⟩
        · exact .inr ⟨aging, hhistory, hin, hexpired⟩
      · rintro (⟨aging, hhistory, hin, hexpired⟩ | ⟨aging, hhistory, hin, hexpired⟩)
        · exact ⟨aging, hhistory, List.mem_singleton.mp hin ▸ List.mem_cons_self, hexpired⟩
        · exact ⟨aging, hhistory, List.mem_cons_of_mem state hin, hexpired⟩

/-- The sweep ends, looks at every member once and drops the jobs that expire. -/
theorem sweepHistory_prunes {ttlByState : HistoryTtlByState} (now : ℤ) {ks : Keyspace V}
    (hindexed : ks.FinishedIndexed) (hbounds : NonnegativeBounds ks.history ttlByState) :
    ∃ pages ks', sweepHistory ttlByState now pages ks =
        some ([ks.due .completed now, ks.due .failed now, ks.due .cancelled now], ks') ∧
      Pruned ks.jobs.get? ks'.jobs.get? (Expired ks.history ttlByState now) := by
  have hnodup : [TerminalState.completed, .failed, .cancelled].Nodup := by decide
  obtain ⟨pages, ks', hstates, hpruned⟩ := sweepStates_prunes now hnodup hindexed hbounds
  refine ⟨pages, ks', hstates, hpruned.congr fun id => ?_⟩
  constructor
  · rintro ⟨aging, hhistory, hexpired⟩
    exact ⟨aging, hhistory, by cases aging.state <;> decide, hexpired⟩
  · rintro ⟨aging, hhistory, _, hexpired⟩
    exact ⟨aging, hhistory, hexpired⟩

end EffectMq.Redis
