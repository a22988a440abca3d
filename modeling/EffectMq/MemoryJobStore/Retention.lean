import EffectMq.Retention
import EffectMq.MemoryJobStore.Decompose

/-! # Retention in the in-memory driver

`applyKeep` collects the victims of both halves of the rule from one sorted list and deletes those
that owe no cascades.
-/

namespace EffectMq.Memory
set_option autoImplicit false
set_option maxHeartbeats 250000

variable {V : Type}

/-- The jobs of one name and terminal state. -/
def Core.terminalJobs (c : Core V) (name : String) (state : TerminalState) : List (MemJob V) :=
  c.jobs.values.filter fun job => decide (job.name = name ∧ job.state = state.toJobState)

def Core.peerOf (c : Core V) (job : MemJob V) : Peer :=
  ⟨job.id, job.finishedAt.getD 0, job.seq, c.owesCascades job.id⟩

/-- The jobs of that name and state are the group. -/
structure HoldsGroup (c : Core V) (name : String) (state : TerminalState) (g : Group) : Prop where
  keyed : c.Keyed
  finished : ∀ job ∈ c.terminalJobs name state, job.finishedAt.isSome
  peers : ((c.terminalJobs name state).map c.peerOf).Perm g.peers

theorem keepPolicyFor_eq (keep : Option KeepPolicy) (state : TerminalState) :
    keepPolicyFor keep state.toJobState = keep.bind (·.governing state) := by
  cases keep with
  | none => rfl
  | some keep =>
    rw [keepPolicyFor, terminal?_toJobState]
    rfl

/-! ## Deleting -/

theorem deleteUnowed_owesCascades (c : Core V) (ids : List JobId) (id : JobId) :
    (c.deleteUnowed ids).owesCascades id = c.owesCascades id := by
  induction ids generalizing c with
  | nil => rfl
  | cons i is ih =>
    rw [Core.deleteUnowed, List.foldl_cons]
    refine (ih _).trans ?_
    split
    · rfl
    · rename_i howes
      unfold Core.owesCascades at *
      by_cases h : id = i
      · subst h
        simpa [Core.deleteJob] using howes
      · simp [Core.deleteJob, h]

theorem deleteUnowed_jobs (c : Core V) (ids : List JobId) (id : JobId) :
    (c.deleteUnowed ids).jobs.get? id =
      if id ∈ ids ∧ c.owesCascades id = false then none else c.jobs.get? id := by
  induction ids generalizing c with
  | nil => simp [Core.deleteUnowed]
  | cons i is ih =>
    have hstep : c.deleteUnowed (i :: is) = (c.deleteUnowed [i]).deleteUnowed is := rfl
    rw [hstep, ih, deleteUnowed_owesCascades]
    by_cases howes : c.owesCascades i = true
    · by_cases h : id = i
      · subst h
        simp [Core.deleteUnowed, howes]
      · simp [Core.deleteUnowed, howes, h]
    · by_cases h : id = i
      · subst h
        simp [Core.deleteUnowed, Core.deleteJob, howes]
      · simp [Core.deleteUnowed, Core.deleteJob, howes, h]

/-! ## The rule -/

instance : Std.Total (@newerFirst V) :=
  descending_total (fun job : MemJob V => job.finishedAt.getD 0) MemJob.seq

instance : IsTrans (MemJob V) newerFirst :=
  descending_trans (fun job : MemJob V => job.finishedAt.getD 0) MemJob.seq

theorem finishedBefore_eq {policy : KeepStatePolicy} {age : JsNumber} {c : Core V} {job : MemJob V}
    {now : Millis} (hage : policy.ageMs = some age) (hfinished : job.finishedAt.isSome) :
    finishedBefore job now age = policy.pastAge now (c.peerOf job) := by
  obtain ⟨t, ht⟩ := Option.isSome_iff_exists.mp hfinished
  simp [finishedBefore, KeepStatePolicy.pastAge, Core.peerOf, ht, hage]

theorem mem_sliceFrom {c : Core V} {name : String} {state : TerminalState} {g : Group}
    (h : HoldsGroup c name state g) (count : JsNumber) {job : MemJob V}
    (hjob : job ∈ c.terminalJobs name state) :
    job ∈ sliceFrom count ((c.terminalJobs name state).insertionSort newerFirst) ↔
      count.exceededBy (g.rank (c.peerOf job)) = true := by
  cases count with
  | finite q =>
    have hdrop := Group.mem_drop_sorted newerFirst h.peers (fun _ _ _ _ hle => hle) hjob
      ⌊max 0 q⌋.toNat
    rw [sliceFrom, hdrop, toNat_floor_le, JsNumber.exceededBy, decide_eq_true_eq]
  | posInf => simp [sliceFrom, JsNumber.exceededBy]
  | negInf | nan => simpa [sliceFrom, JsNumber.exceededBy] using hjob

theorem mem_keepVictims_iff {policy : KeepStatePolicy} {peers : List (MemJob V)} {now : Millis}
    {id : JobId} :
    id ∈ keepVictims policy peers now ↔ ∃ peer ∈ peers, peer.id = id ∧
      ((∃ age, policy.ageMs = some age ∧ finishedBefore peer now age = true) ∨
        ∃ count, policy.count = some count ∧ peer ∈ sliceFrom count peers) := by
  rw [keepVictims, List.mem_append]
  constructor
  · rintro (haged | hbeyond)
    · split at haged
      · cases haged
      · rename_i age hage
        obtain ⟨peer, hpeer, rfl⟩ := List.mem_map.mp haged
        rw [List.mem_filter] at hpeer
        exact ⟨peer, hpeer.1, rfl, .inl ⟨age, hage, hpeer.2⟩⟩
    · split at hbeyond
      · cases hbeyond
      · rename_i count hcount
        obtain ⟨peer, hpeer, rfl⟩ := List.mem_map.mp hbeyond
        exact ⟨peer, (sliceFrom_suffix _ _).mem hpeer, rfl, .inr ⟨count, hcount, hpeer⟩⟩
  · rintro ⟨peer, hpeer, rfl, ⟨age, hage, hbefore⟩ | ⟨count, hcount, hslice⟩⟩
    · rw [hage]
      exact .inl (List.mem_map_of_mem (List.mem_filter.mpr ⟨hpeer, hbefore⟩))
    · rw [hcount]
      exact .inr (List.mem_map_of_mem hslice)

/-- Among the victims, what the rule dooms is what owes no cascades. -/
theorem doomed_iff {c : Core V} {name : String} {state : TerminalState} {g : Group}
    (h : HoldsGroup c name state g) (policy : KeepStatePolicy) (now : Millis) (id : JobId) :
    g.Doomed (some policy) now id ↔
      id ∈ keepVictims policy ((c.terminalJobs name state).insertionSort newerFirst) now ∧
        c.owesCascades id = false := by
  rw [mem_keepVictims_iff]
  simp only [List.mem_insertionSort]
  constructor
  · rintro ⟨rule, hrule, p, hp, rfl, howed, hdue⟩
    obtain rfl := Option.some.inj hrule
    obtain ⟨job, hjob, rfl⟩ := Group.exists_of_listed h.peers hp
    refine ⟨⟨job, hjob, rfl, ?_⟩, howed⟩
    rcases hdue with hage | hbeyond
    · obtain ⟨age, hsome, _⟩ := (Option.any_eq_true _ _).mp hage
      exact .inl ⟨age, hsome, (finishedBefore_eq hsome (h.finished job hjob)).trans hage⟩
    · obtain ⟨count, hsome, hexceeded⟩ := (Option.any_eq_true _ _).mp hbeyond
      exact .inr ⟨count, hsome, (mem_sliceFrom h count hjob).mpr hexceeded⟩
  · rintro ⟨⟨job, hjob, rfl, hdue⟩, howed⟩
    refine ⟨policy, rfl, c.peerOf job, Group.mem_of_listed h.peers hjob, rfl, howed, ?_⟩
    rcases hdue with ⟨age, hage, hbefore⟩ | ⟨count, hcount, hslice⟩
    · exact .inl ((finishedBefore_eq hage (h.finished job hjob)).symm.trans hbefore)
    · exact .inr ((Option.any_eq_true _ _).mpr ⟨count, hcount, (mem_sliceFrom h count hjob).mp hslice⟩)

theorem applyKeep_prunes {c : Core V} {job : MemJob V} {state : TerminalState} {g : Group}
    (h : HoldsGroup c job.name state g) (hstate : job.state = state.toJobState) (now : Millis) :
    Pruned c.jobs.get? (c.applyKeep job now).jobs.get?
      (g.Doomed (job.keep.bind (·.governing state)) now) := by
  unfold Core.applyKeep
  rw [hstate, keepPolicyFor_eq]
  cases job.keep.bind (·.governing state) with
  | none =>
    apply Pruned.refl_of
    rintro id ⟨rule, hrule, _⟩
    cases hrule
  | some policy =>
    intro id
    have hdeleted := deleteUnowed_jobs c (keepVictims policy
      ((c.terminalJobs job.name state).insertionSort newerFirst) now) id
    have hiff := doomed_iff h policy now id
    constructor
    · intro hd
      exact hdeleted.trans (if_pos (hiff.mp hd))
    · intro hd
      exact hdeleted.trans (if_neg fun hvictim => hd (hiff.mpr hvictim))

/-! ## The history sweep -/

def Core.history (c : Core V) (id : JobId) : Option Aging :=
  (c.jobs.get? id).bind fun job =>
    job.state.terminal?.bind fun state =>
      job.finishedAt.map fun t => ⟨state, t, job.keep, c.owesCascades id⟩

theorem effectiveAge_eq (job : MemJob V) (state : TerminalState) (ttlByState : HistoryTtlByState) :
    effectiveAge job state ttlByState =
      strictest ((job.keep.bind (·.governing state)).bind (·.ageMs)) (ttlByState.of state) := by
  rw [effectiveAge, keepPolicyFor_eq]
  cases (job.keep.bind (·.governing state)).bind (·.ageMs) <;> cases ttlByState.of state <;> rfl

/-- Whether the sweep takes the job, cascades apart. -/
def dueBy (now : Millis) (ttlByState : HistoryTtlByState) (job : MemJob V) : Bool :=
  (job.state.terminal?.bind fun state => effectiveAge job state ttlByState).any fun age =>
    finishedBefore job now age

theorem sweepJob_eq (now : Millis) (ttlByState : HistoryTtlByState) (c : Core V) (job : MemJob V) :
    sweepJob now ttlByState c job = if dueBy now ttlByState job then c.deleteUnowed [job.id] else c := by
  unfold sweepJob dueBy
  cases job.state.terminal? with
  | none => rfl
  | some state =>
    cases hage : effectiveAge job state ttlByState with
    | none => simp [hage]
    | some age =>
      cases hbefore : finishedBefore job now age <;> cases howed : c.owesCascades job.id <;>
        simp [hage, hbefore, howed, Core.deleteUnowed]

theorem foldl_sweepJob (now : Millis) (ttlByState : HistoryTtlByState) (jobs : List (MemJob V))
    (c : Core V) :
    jobs.foldl (sweepJob now ttlByState) c =
      c.deleteUnowed ((jobs.filter (dueBy now ttlByState)).map (·.id)) := by
  induction jobs generalizing c with
  | nil => rfl
  | cons job jobs ih =>
    rw [List.foldl_cons, ih, sweepJob_eq, List.filter_cons]
    split <;> rfl

/-- The sweep drops the jobs that expire. -/
theorem sweepHistory_prunes {s : Store V} (hkeyed : s.toCore.Keyed) (ttlByState : HistoryTtlByState)
    (now : Millis) :
    Pruned s.jobs.get? (sweepHistory s now ttlByState).jobs.get?
      (Expired s.toCore.history ttlByState now) := by
  intro id
  have hjobs : (sweepHistory s now ttlByState).jobs.get? id = _ :=
    (congrArg (fun c : Core V => c.jobs.get? id) (foldl_sweepJob now ttlByState s.jobs.values _)).trans
      (deleteUnowed_jobs s.toCore _ id)
  have hiff : Expired s.toCore.history ttlByState now id ↔
      id ∈ (s.jobs.values.filter (dueBy now ttlByState)).map (·.id) ∧
        s.toCore.owesCascades id = false := by
    rw [List.mem_map]
    constructor
    · rintro ⟨aging, haging, hexpired⟩
      obtain ⟨job, hjob, haging⟩ := Option.bind_eq_some_iff.mp haging
      obtain ⟨state, hstate, haging⟩ := Option.bind_eq_some_iff.mp haging
      obtain ⟨t, ht, rfl⟩ := Option.map_eq_some_iff.mp haging
      obtain ⟨howed, hany⟩ := (Bool.and_eq_true _ _).mp hexpired
      refine ⟨⟨job, List.mem_filter.mpr ⟨JsMap.mem_values.mpr ⟨id, hjob⟩, ?_⟩, hkeyed id job hjob⟩,
        by simpa using howed⟩
      rw [dueBy, hstate, Option.bind_some, effectiveAge_eq]
      simp only [finishedBefore, ht]
      exact hany
    · rintro ⟨⟨job, hmem, rfl⟩, howed⟩
      obtain ⟨hmem, hdue⟩ := List.mem_filter.mp hmem
      have hjob := mem_values_get? hkeyed hmem
      rw [dueBy] at hdue
      cases hstate : job.state.terminal? with
      | none =>
        rw [hstate] at hdue
        cases hdue
      | some state =>
        rw [hstate, Option.bind_some, effectiveAge_eq] at hdue
        cases ht : job.finishedAt with
        | none =>
          obtain ⟨age, _, hbefore⟩ := (Option.any_eq_true _ _).mp hdue
          rw [finishedBefore, ht] at hbefore
          cases hbefore
        | some t =>
          refine ⟨⟨state, t, job.keep, s.toCore.owesCascades job.id⟩, ?_, ?_⟩
          · rw [Core.history, hjob, Option.bind_some, hstate, Option.bind_some, ht]
            rfl
          · simp only [finishedBefore, ht] at hdue
            rw [Aging.expired, howed]
            exact hdue
  rw [hjobs, hiff]
  constructor
  · intro hd
    exact if_pos hd
  · intro hd
    exact if_neg hd

end EffectMq.Memory
