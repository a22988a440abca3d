import EffectMq.MemoryJobStore.Retention
import EffectMq.RedisJobStore.HistorySweep
import EffectMq.RedisJobStore.Runs

/-! # The drivers agree on the history sweep

The in-memory driver looks at every job. The Redis driver reads its finished sets up to the clock
reading, page by page. As long as no age and no ceiling is below 0, a job that finishes later is not
due yet, and both drop the same jobs.
-/

namespace EffectMq
set_option autoImplicit false
set_option maxHeartbeats 250000

variable {V : Type}

/-- The Redis loop ends, looks at each member up to the clock reading once, and drops the jobs that
expire; the in-memory sweep drops the same ones. -/
def SweepsAgree (s : Memory.Store V) (ks : Redis.Keyspace V) (ttlByState : HistoryTtlByState)
    (now : ℤ) : Prop :=
  (∃ pages ks', Redis.sweepHistory ttlByState now pages ks =
      some ([ks.due .completed now, ks.due .failed now, ks.due .cancelled now], ks') ∧
    Pruned ks.jobs.get? ks'.jobs.get? (Expired ks.history ttlByState now)) ∧
  Pruned s.jobs.get? (Memory.sweepHistory s now ttlByState).jobs.get?
    (Expired ks.history ttlByState now)

/-- Where the bounds are not below 0, the sweeps agree. -/
theorem sweeps_agree {s : Memory.Store V} {ks : Redis.Keyspace V} (hkeyed : s.toCore.Keyed)
    (hindexed : ks.FinishedIndexed) (hsame : s.toCore.history = ks.history)
    (ttlByState : HistoryTtlByState) (now : ℤ)
    (hbounds : NonnegativeBounds ks.history ttlByState) : SweepsAgree s ks ttlByState now := by
  refine ⟨Redis.sweepHistory_prunes now hindexed hbounds, ?_⟩
  rw [← hsame]
  exact Memory.sweepHistory_prunes hkeyed ttlByState now

/-- Any scripts leave every finished set listing the jobs of its state. -/
theorem Redis.Sound.finishedIndexed {indexes : Redis.IndexConfig} {ks : Redis.Keyspace V}
    (h : Redis.Sound indexes ks) : ks.FinishedIndexed where
  member state id t job ht hjob := by
    have hscore : (ks.index (.finished state.toJobState)).score? id = some t := ht
    obtain ⟨id', job', hjob', hlisted⟩ := h.consistent.member hscore
    simp only [Redis.JobHash.listed] at hlisted
    split at hlisted
    · rename_i hstate
      obtain ⟨t', ht', heq⟩ := Option.map_eq_some_iff.mp hlisted
      cases heq
      rw [hjob] at hjob'
      obtain rfl := Option.some.inj hjob'
      exact ⟨hstate.1.symm, ht'⟩
    · cases hlisted
  listed state id job hjob hstate := by
    have hterminal : job.state.isTerminal = true := by
      rw [hstate]
      cases state <;> rfl
    obtain ⟨t, ht⟩ :=
      Option.isSome_iff_exists.mp ((h.consistent.sound id job hjob).stamped.finished hterminal)
    refine ⟨t, (h.consistent.lists (.finished state.toJobState) id t).mpr ⟨id, ?_⟩⟩
    rw [hjob, Indexes.entryOf_some, Redis.JobHash.listed, if_pos ⟨hstate.symm, hterminal⟩, ht]
    rfl

/-! ## Three finished jobs -/

section Ended

variable (keep : Option KeepPolicy)

/-- The jobs and when they finished. -/
def ended : JsMap JobId ℤ := ⟨[("kept", 9), ("owing", 5), ("dropped", 3)], by decide⟩

def endedRecord (id : JobId) (finishedAt : ℤ) : JobRecord Unit where
  id := id
  name := "n"
  queue := "q"
  payload := ()
  metadata := []
  state := .completed
  priority := 0
  attemptsMax := 1
  attemptsMade := 1
  stalledCount := 0
  backoff := none
  keep := keep
  timeoutMs := none
  cancelRequested := false
  dedupeKey := none
  trace := none
  parent := none
  flow := none
  runAt := 0
  enqueuedAt := 0
  processedAt := some 0
  finishedAt := some finishedAt
  exit := none
  failedReason := none

def endedJob (id : JobId) (finishedAt : ℤ) : Memory.MemJob Unit :=
  { endedRecord keep id finishedAt with
    attempts := [], seq := 1, lockToken := none, lockExpiresAt := none }

def endedHash (id : JobId) (finishedAt : ℤ) : Redis.JobHash Unit :=
  { endedRecord keep id finishedAt with
    dedupeKey := "", failedReason := "", lockToken := "", lockExpiresAt := none, seq := 1 }

/-- A cancelled row whose cascade is still to come. -/
def owedRow : Memory.MemFlowChild Unit where
  flowId := "owing"
  childKey := "a"
  storeKey := "kids"
  spec := .plain "child" "n" "q" ()
  status := .cancelled
  exit := none
  failedReason := none
  cascaded := false
  pendingSince := 0

def owedHash : Redis.RowHash Unit where
  childKey := "a"
  storeKey := "kids"
  childJobId := "child"
  name := "n"
  spec := .plain "child" "n" "q" ()
  status := .cancelled
  exit := none
  failedReason := ""
  cascaded := false
  pendingSince := 0

def endedStore : Memory.Store Unit :=
  { Memory.Store.empty with
    jobs := ended.mapValues (endedJob keep)
    flowChildren := .single "owing" (.single "a" owedRow) }

/-- The finished set has a member whose job is gone. -/
def endedKeyspace : Redis.Keyspace Unit :=
  { Redis.Keyspace.empty with
    jobs := ended.mapValues (endedHash keep)
    finished := Redis.upd (fun _ => ∅) .completed (.ofList (("orphan", 2) :: ended.entries))
    flowRows := .single ("owing", "a") owedHash
    flowIndex := Redis.upd (fun _ => ∅) "owing" (.ofList [("a", 0)]) }

theorem endedStore_keyed : (endedStore keep).toCore.Keyed := by
  intro id job hjob
  rw [endedStore, JsMap.get?_mapValues] at hjob
  obtain ⟨t, _, rfl⟩ := Option.map_eq_some_iff.mp hjob
  rfl

theorem endedKeyspace_indexed : (endedKeyspace keep).FinishedIndexed := by
  have hscore : ∀ id t, ((endedKeyspace keep).finished .completed).score? id = some t ↔
      (id, t) ∈ ("orphan", 2) :: ended.entries := fun id t =>
    ZSet.score?_ofList (by decide)
  have hother : ∀ state id, state ≠ JobState.completed →
      ((endedKeyspace keep).finished state).score? id = none := fun state id hne => by
    simp [endedKeyspace, hne]
  have hjobs : ∀ id job, (endedKeyspace keep).jobs.get? id = some job →
      ∃ t, (id, t) ∈ ended.entries ∧ job = endedHash keep id t := by
    intro id job hjob
    rw [endedKeyspace, JsMap.get?_mapValues] at hjob
    obtain ⟨t, ht, rfl⟩ := Option.map_eq_some_iff.mp hjob
    exact ⟨t, JsMap.get?_eq_some.mp ht, rfl⟩
  constructor
  · intro state id t job ht hjob
    obtain ⟨t', ht', rfl⟩ := hjobs id job hjob
    have hstate : state.toJobState = .completed := by
      by_contra hne
      rw [hother _ id hne] at ht
      cases ht
    rw [hstate] at ht ⊢
    have hsame := (hscore id t').mpr (List.mem_cons_of_mem _ ht')
    exact ⟨rfl, hsame.symm.trans ht⟩
  · intro state id job hjob hstate
    obtain ⟨t, ht, rfl⟩ := hjobs id job hjob
    rw [← hstate]
    exact ⟨t, (hscore id t).mpr (List.mem_cons_of_mem _ ht)⟩

theorem ended_history : (endedStore keep).toCore.history = (endedKeyspace keep).history := by
  have howed : (endedStore keep).toCore.owesCascades = Redis.owesCascades (endedKeyspace keep) := by
    funext id
    by_cases hid : id = "owing"
    · rw [hid]
      rfl
    · simp [Memory.Core.owesCascades, endedStore, Redis.owesCascades, endedKeyspace, hid,
        ZSet.members, JsMap.get?_single]
  funext id
  rw [Memory.Core.history, howed, Redis.Keyspace.history, endedStore, endedKeyspace,
    JsMap.get?_mapValues, JsMap.get?_mapValues]
  cases ended.get? id <;> rfl

end Ended

/-- With a ceiling of 5 at 10: one job is too young, one exempt, one goes, and so does the orphan. -/
theorem sweeps_agree_ended :
    SweepsAgree (endedStore none) (endedKeyspace none) ⟨some (.finite 5), none, none⟩ 10 ∧
      (Memory.sweepHistory (endedStore none) 10 ⟨some (.finite 5), none, none⟩).jobs.keys =
        ["kept", "owing"] := by
  refine ⟨sweeps_agree (endedStore_keyed none) (endedKeyspace_indexed none) (ended_history none) _ 10
    ⟨fun id job age hjob hage => ?_, fun state ttl httl => ?_⟩, by decide +kernel⟩
  · rw [Redis.Keyspace.history, endedKeyspace, JsMap.get?_mapValues] at hjob
    cases hid : ended.get? id with
    | none =>
      rw [hid] at hjob
      cases hjob
    | some t =>
      rw [hid] at hjob
      obtain rfl := Option.some.inj hjob
      cases hage
  · cases state <;> cases httl
    rfl

/-- An age below 0 names jobs that finish after the clock reading. -/
def negativeAge : KeepPolicy :=
  { completed := some { count := none, ageMs := some (.finite (-10)) } }

theorem sweeps_disagree :
    (endedStore (some negativeAge)).toCore.Keyed ∧
      (endedKeyspace (some negativeAge)).FinishedIndexed ∧
      (endedStore (some negativeAge)).toCore.history = (endedKeyspace (some negativeAge)).history ∧
      ¬SweepsAgree (endedStore (some negativeAge)) (endedKeyspace (some negativeAge))
        ⟨none, none, none⟩ 0 := by
  refine ⟨endedStore_keyed _, endedKeyspace_indexed _, ended_history _, ?_⟩
  rintro ⟨⟨pages, ks', hloop, hpruned⟩, _⟩
  have hexpired :
      Expired (endedKeyspace (some negativeAge)).history ⟨none, none, none⟩ 0 "dropped" := by
    refine ⟨⟨.completed, 3, some negativeAge, false⟩, rfl, ?_⟩
    simp [Aging.expired, Aging.ownAge, negativeAge, KeepPolicy.governing, KeepPolicy.of, strictest,
      HistoryTtlByState.of, JsNumber.reached]
    norm_num
  have hgone := (hpruned "dropped").1 hexpired
  cases pages with
  | zero => cases hloop
  | succ pages =>
    -- no page has the jobs: they are not within the clock reading
    have hnone : Redis.sweepHistory ⟨none, none, none⟩ 0 (pages + 1)
        (endedKeyspace (some negativeAge)) =
          some ([[], [], []], endedKeyspace (some negativeAge)) := rfl
    rw [hnone] at hloop
    rw [← (Prod.mk.inj (Option.some.inj hloop)).2] at hgone
    cases hgone

end EffectMq
