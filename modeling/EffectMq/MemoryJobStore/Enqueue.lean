import EffectMq.MemoryJobStore.Decompose

/-! # What an enqueue does

The branches of `enqueueOne`, said once (`enqueueOne_spec`): the id exists, a replace lands on the
delayed job of the key, a live window or a pending job absorbs the request, or a job is inserted and
takes over the key.
-/

namespace EffectMq.Memory
set_option autoImplicit false
set_option maxHeartbeats 250000

variable {V : Type}

/-! ## The decision tree -/

/-- The registry key of a request. -/
def requestMapKey? (request : EnqueueRequest V) : Option String :=
  request.dedupe.map fun dedupe => dedupeMapKey request.name dedupe.key

/-- The delayed job whose content a replace overwrites. -/
def replaceTarget? (s : Store V) (request : EnqueueRequest V) : Option (MemJob V) :=
  match request.id.filter s.jobs.has with
  | some _ => none
  | none =>
    request.dedupe.bind fun dedupe =>
      (s.dedupes.get? (dedupeMapKey request.name dedupe.key)).bind fun entry =>
        (s.jobs.get? entry.jobId).filter fun keyed =>
          dedupe.replace && decide (keyed.state = .delayed)

/-- An entry that neither a live window nor a pending job keeps. -/
def DedupeEntry.Dead (entry : DedupeEntry) (s : Store V) (now : Millis) : Prop :=
  entry.live now = false ∧
    (entry.expiresAt = none → ∀ keyed, s.jobs.get? entry.jobId = some keyed →
      keyed.state.isTerminal = true)

theorem dedupeDecision_eq_none {s : Store V} {now : Millis} {request : EnqueueRequest V}
    {dedupe : DedupePolicy} (h : dedupeDecision s now request dedupe = none) {entry : DedupeEntry}
    (he : s.dedupes.get? (dedupeMapKey request.name dedupe.key) = some entry) :
    entry.Dead s now := by
  unfold dedupeDecision at h
  simp only [he] at h
  split at h
  · cases h
  · split at h
    · cases h
    · rename_i hlive
      split at h
      · cases h
      · rename_i hpending
        refine ⟨Bool.eq_false_iff.mpr hlive, fun hexp keyed hk => ?_⟩
        by_contra ht
        refine hpending ⟨hexp, ?_⟩
        rw [hk, Option.any_some, Bool.eq_false_iff.mpr ht]
        rfl

/-- The outcomes of `enqueueOne`. -/
inductive Enqueued (s : Store V) (now : Millis) (request : EnqueueRequest V) (ids : IdSource) :
    Except StoreError EnqueueResult → Store V → Prop
  | duplicate {id : JobId} (ht : replaceTarget? s request = none) (hid : request.id = some id)
      (h : s.jobs.has id = true) :
      Enqueued s now request ids (.ok ⟨id, true⟩) s
  | replaced {dedupe : DedupePolicy} {entry : DedupeEntry} {keyed : MemJob V}
      (ht : replaceTarget? s request = some keyed) (hd : request.dedupe = some dedupe)
      (he : s.dedupes.get? (dedupeMapKey request.name dedupe.key) = some entry)
      (hj : s.jobs.get? entry.jobId = some keyed) (hst : keyed.state = .delayed)
      (hr : dedupe.replace = true) :
      Enqueued s now request ids (.ok ⟨keyed.id, true⟩)
        (signalWake (setWindow (s.putJob (replaceJob keyed request now))
          (dedupeMapKey request.name dedupe.key) now dedupe.ttlMs) (some keyed.queue))
  | windowed {dedupe : DedupePolicy} {entry : DedupeEntry} (ht : replaceTarget? s request = none)
      (hd : request.dedupe = some dedupe)
      (he : s.dedupes.get? (dedupeMapKey request.name dedupe.key) = some entry)
      (hlive : entry.live now = true) :
      Enqueued s now request ids (.ok ⟨entry.jobId, true⟩)
        (if dedupe.extend then setWindow s (dedupeMapKey request.name dedupe.key) now dedupe.ttlMs
          else s)
  | pending {dedupe : DedupePolicy} {entry : DedupeEntry} {keyed : MemJob V}
      (ht : replaceTarget? s request = none) (hd : request.dedupe = some dedupe)
      (he : s.dedupes.get? (dedupeMapKey request.name dedupe.key) = some entry)
      (hexp : entry.expiresAt = none) (hj : s.jobs.get? entry.jobId = some keyed)
      (hst : keyed.state.isTerminal = false) :
      Enqueued s now request ids (.ok ⟨entry.jobId, true⟩) s
  | inserted {id : JobId} (counter : ℕ) (ht : replaceTarget? s request = none)
      (hnone : s.jobs.get? id = none) (hid : ∀ i, request.id = some i → i = id)
      (hd : ∀ dedupe, request.dedupe = some dedupe → ∀ entry,
        s.dedupes.get? (dedupeMapKey request.name dedupe.key) = some entry → entry.Dead s now)
      (hdec : enqueueDecision s now request = none) (ha : (assignId s request ids).1 = some id) :
      Enqueued s now request ids (.ok ⟨id, false⟩)
        (insertFresh { s with idCounter := counter } now request id)
  | exhausted (e : StoreError) (ht : replaceTarget? s request = none)
      (hdec : enqueueDecision s now request = none) :
      Enqueued s now request ids (.error e) s

theorem assignId_store {s s' : Store V} {request : EnqueueRequest V} {ids : IdSource} {id : JobId}
    (h : assignId s request ids = (some id, s')) : ∃ counter, s' = { s with idCounter := counter } := by
  unfold assignId at h
  split at h
  · cases h
    exact ⟨s.idCounter, rfl⟩
  · split at h
    · cases h
      exact ⟨_, rfl⟩
    · cases h
  · rw [Prod.mk.injEq] at h
    rw [← h.2]
    exact ⟨s.idCounter, rfl⟩

theorem assignId_none {s s' : Store V} {request : EnqueueRequest V} {ids : IdSource}
    (h : assignId s request ids = (none, s')) : s' = s := by
  unfold assignId at h
  split at h
  · cases h
  · split at h
    · cases h
    · cases h
      rfl
  · exact (Prod.mk.inj h).2.symm

/-- The branch that inserts, when the decision tree gives no answer. -/
theorem enqueueOne_insert {s : Store V} {now : Millis} {request : EnqueueRequest V} (ids : IdSource)
    (hdec : enqueueDecision s now request = none) (ht : replaceTarget? s request = none)
    (hid : request.id.filter s.jobs.has = none) :
    Enqueued s now request ids (enqueueOne s now request ids).1 (enqueueOne s now request ids).2 := by
  have hfree : ∀ i, request.id = some i → s.jobs.has i = false := by
    intro i hi
    rw [hi, Option.filter_some] at hid
    by_contra hc
    rw [if_pos (Bool.eq_true_of_not_eq_false hc)] at hid
    cases hid
  have hdead : ∀ dedupe, request.dedupe = some dedupe → ∀ entry,
      s.dedupes.get? (dedupeMapKey request.name dedupe.key) = some entry → entry.Dead s now := by
    intro dedupe hd entry he
    rw [enqueueDecision, hid, hd] at hdec
    exact dedupeDecision_eq_none hdec he
  rw [enqueueOne]
  simp only [hdec]
  cases ha : assignId s request ids with
  | mk id? s' =>
    cases id? with
    | none =>
      rw [assignId_none ha]
      exact .exhausted _ ht hdec
    | some id =>
      obtain ⟨_, hnone, hid⟩ := assignId_free hfree ha
      obtain ⟨counter, rfl⟩ := assignId_store ha
      exact .inserted counter ht hnone hid hdead hdec (congrArg Prod.fst ha)

theorem enqueueOne_spec (s : Store V) (now : Millis) (request : EnqueueRequest V) (ids : IdSource) :
    Enqueued s now request ids (enqueueOne s now request ids).1 (enqueueOne s now request ids).2 := by
  cases hid : request.id.filter s.jobs.has with
  | some id =>
    obtain ⟨hi, hhas⟩ := Option.filter_eq_some_iff.mp hid
    rw [enqueueOne, enqueueDecision, hid]
    exact .duplicate (by rw [replaceTarget?, hid]) hi hhas
  | none =>
    cases hd : request.dedupe with
    | none =>
      refine enqueueOne_insert ids ?_ ?_ hid
      · rw [enqueueDecision, hid, hd]
        rfl
      · rw [replaceTarget?, hid, hd]
        rfl
    | some dedupe =>
      have hdec : enqueueDecision s now request = dedupeDecision s now request dedupe := by
        rw [enqueueDecision, hid, hd]
        rfl
      cases he : s.dedupes.get? (dedupeMapKey request.name dedupe.key) with
      | none =>
        refine enqueueOne_insert ids ?_ ?_ hid
        · rw [hdec, dedupeDecision, he]
        · rw [replaceTarget?, hid, hd, Option.bind_some, he]
          rfl
      | some entry =>
        have htarget : replaceTarget? s request = (s.jobs.get? entry.jobId).filter fun keyed =>
            dedupe.replace && decide (keyed.state = .delayed) := by
          rw [replaceTarget?, hid, hd, Option.bind_some, he]
          rfl
        cases hf : (s.jobs.get? entry.jobId).filter fun keyed =>
            dedupe.replace && decide (keyed.state = .delayed) with
        | some keyed =>
          obtain ⟨hj, hr⟩ := Option.filter_eq_some_iff.mp hf
          obtain ⟨hr, hst⟩ := Bool.and_eq_true_iff.mp hr
          have heq : dedupeDecision s now request dedupe = some (⟨keyed.id, true⟩,
              signalWake (setWindow (s.putJob (replaceJob keyed request now))
                (dedupeMapKey request.name dedupe.key) now dedupe.ttlMs) (some keyed.queue)) := by
            simp only [dedupeDecision, he, hf]
          rw [enqueueOne, hdec, heq]
          exact .replaced (htarget.trans hf) hd he hj (of_decide_eq_true hst) hr
        | none =>
          have htarget := htarget.trans hf
          by_cases hlive : entry.live now = true
          · have heq : dedupeDecision s now request dedupe = some (⟨entry.jobId, true⟩,
                if dedupe.extend then
                  setWindow s (dedupeMapKey request.name dedupe.key) now dedupe.ttlMs
                else s) := by
              simp only [dedupeDecision, he, hf, if_pos hlive]
            rw [enqueueOne, hdec, heq]
            exact .windowed htarget hd he hlive
          · by_cases hp : entry.expiresAt = none ∧
              (s.jobs.get? entry.jobId).any (fun keyed => !keyed.state.isTerminal) = true
            · have heq : dedupeDecision s now request dedupe = some (⟨entry.jobId, true⟩, s) := by
                simp only [dedupeDecision, he, hf, if_neg hlive, if_pos hp]
              obtain ⟨keyed, hj, hst⟩ := (Option.any_eq_true _ _).mp hp.2
              rw [enqueueOne, hdec, heq]
              exact .pending htarget hd he hp.1 hj (by simpa using hst)
            · refine enqueueOne_insert ids ?_ htarget hid
              rw [hdec]
              simp only [dedupeDecision, he, hf, if_neg hlive, if_neg hp]

end EffectMq.Memory
