import EffectMq.MemoryJobStore.Enqueue

/-! # Calls that fail

Every operation checks before it writes: a call that ends in a typed error, or that answers it did
nothing, leaves the whole store as it was. `ack` and `release` fail on a missing job, on a lock that is
not held, and on a fan-out with a child without an id, and on nothing else.
-/

namespace EffectMq.Memory
set_option autoImplicit false
set_option maxHeartbeats 250000

variable {V : Type}

def Errs {α : Type} (called : Except StoreError α × Store V) : Prop := ∃ e, called.1 = .error e

/-- The job is active under the token. -/
def Holds (s : Store V) (id : JobId) (token : String) : Prop :=
  ∃ job, s.jobs.get? id = some job ∧ job.state = .active ∧ job.lockToken = some token

/-- The compare-and-swap of a tick finds no schedule, or another next occurrence. -/
def LosesSwap (s : Store V) (key : ScheduleKey) (expectedRunAt : Millis) : Prop :=
  ∀ schedule, s.schedules.get? key = some schedule → schedule.nextRunAt ≠ expectedRunAt

/-- The call ends in an error, or returns `false` because there is nothing to do. -/
def Fails (s : Store V) (now : Millis) : Op V → Prop
  | .enqueue request ids => Errs (enqueueOne s now request ids)
  | .resumeEnqueue request candidate => (resumeEnqueue s now request candidate).1 = none
  | .ack id token outcome => Errs (ack s now id token outcome)
  | .release id token => Errs (release s now id token)
  | .retry id => Errs (retry s now id)
  | .cancel id => Errs (cancelJob s now id)
  | .promote id => Errs (promote s now id)
  | .tickSchedule key expectedRunAt nextRunAt request =>
    Errs (tickSchedule s now key expectedRunAt nextRunAt request) ∨ LosesSwap s key expectedRunAt
  | .cancelByDedupe name key => (cancelByDedupe s now name key).1 = false
  | .remove id => (remove s id).1 = false
  | _ => False

/-! ## Nothing is written -/

theorem enqueueOne_errs {s : Store V} {now : Millis} {request : EnqueueRequest V} {ids : IdSource}
    (h : Errs (enqueueOne s now request ids)) : (enqueueOne s now request ids).2 = s := by
  have hspec := enqueueOne_spec s now request ids
  obtain ⟨e, he⟩ := h
  rw [he] at hspec
  generalize (enqueueOne s now request ids).2 = t at hspec ⊢
  cases hspec with
  | exhausted => rfl

theorem ack_errs {s : Store V} {now : Millis} {id : JobId} {token : String} {outcome : AckOutcome V}
    (h : Errs (ack s now id token outcome)) : (ack s now id token outcome).2 = s := by
  obtain ⟨e, he⟩ := h
  unfold ack at he ⊢
  split at he
  · rfl
  · split at he
    · rename_i hlost
      rw [if_pos hlost]
    · rename_i hheld
      split at he
      · rename_i hlacks
        rw [if_neg hheld, if_pos hlacks]
      · cases he

theorem release_errs {s : Store V} {now : Millis} {id : JobId} {token : String}
    (h : Errs (release s now id token)) : (release s now id token).2 = s := by
  obtain ⟨e, he⟩ := h
  unfold release at he ⊢
  split at he
  · rfl
  · split at he
    · rename_i hlost
      rw [if_pos hlost]
    · split at he <;> cases he

theorem retry_errs {s : Store V} {now : Millis} {id : JobId} (h : Errs (retry s now id)) :
    (retry s now id).2 = s := by
  obtain ⟨e, he⟩ := h
  unfold retry at he ⊢
  split at he
  · rfl
  · split at he
    · rename_i hstate
      rw [if_pos hstate]
    · cases he

theorem promote_errs {s : Store V} {now : Millis} {id : JobId} (h : Errs (promote s now id)) :
    (promote s now id).2 = s := by
  obtain ⟨e, he⟩ := h
  unfold promote at he ⊢
  split at he
  · rfl
  · split at he
    · rename_i hstate
      rw [if_pos hstate]
    · cases he

theorem cancelJob_errs {s : Store V} {now : Millis} {id : JobId} (h : Errs (cancelJob s now id)) :
    (cancelJob s now id).2 = s := by
  obtain ⟨e, he⟩ := h
  unfold cancelJob at he ⊢
  split at he
  · rfl
  · rename_i job hj
    cases hst : job.state <;> rw [hst] at he <;> first | rfl | cases he

theorem cancelByDedupe_false {s : Store V} {now : Millis} {name key : String}
    (h : (cancelByDedupe s now name key).1 = false) : (cancelByDedupe s now name key).2 = s := by
  unfold cancelByDedupe at h ⊢
  split at h
  · rfl
  · rename_i entry he
    cases hcancel : cancelJob s now entry.jobId with
    | mk result t =>
      cases result with
      | ok => rw [hcancel] at h; cases h
      | error e =>
        have herrs : Errs (cancelJob s now entry.jobId) := ⟨e, by rw [hcancel]⟩
        have hsame := cancelJob_errs herrs
        rw [hcancel] at hsame
        exact hsame

theorem tickSchedule_fails {s : Store V} {now : Millis} {key : ScheduleKey}
    {expectedRunAt nextRunAt : Millis} {request : EnqueueRequest V}
    (h : Errs (tickSchedule s now key expectedRunAt nextRunAt request) ∨
      LosesSwap s key expectedRunAt) :
    (tickSchedule s now key expectedRunAt nextRunAt request).2 = s := by
  unfold tickSchedule at h ⊢
  split
  · rfl
  · rename_i id hid
    split
    · rfl
    · rename_i schedule hschedule
      split
      · rfl
      · rename_i hrun
        rcases h with ⟨e, he⟩ | hloses
        · simp only [hid, hschedule, if_neg hrun] at he
          split at he <;> cases he
        · exact absurd (hloses schedule hschedule) hrun

theorem remove_false {s : Store V} {id : JobId} (h : (remove s id).1 = false) :
    (remove s id).2 = s := by
  unfold remove at h ⊢
  split at h
  · rfl
  · split at h
    · rename_i hstate
      rw [if_pos hstate]
    · cases h

theorem Fails.unchanged {s : Store V} {now : Millis} {op : Op V} (h : Fails s now op) :
    exec s now op = s := by
  cases op with
  | enqueue => exact enqueueOne_errs h
  | resumeEnqueue request candidate =>
    simp only [Fails, Memory.exec, resumeEnqueue] at h ⊢
    split at h
    · rename_i htaken
      rw [if_pos htaken]
    · cases h
  | ack => exact ack_errs h
  | release => exact release_errs h
  | retry => exact retry_errs h
  | cancel => exact cancelJob_errs h
  | promote => exact promote_errs h
  | tickSchedule => exact tickSchedule_fails h
  | cancelByDedupe => exact cancelByDedupe_false h
  | remove => exact remove_false h
  | _ => exact h.elim

/-! ## When a call fails -/

theorem not_holds {s : Store V} {id : JobId} {token : String} {job : MemJob V}
    (hj : s.jobs.get? id = some job) :
    (job.state ≠ .active ∨ job.lockToken ≠ some token) ↔ ¬ Holds s id token := by
  constructor
  · rintro hlost ⟨job', hj', hst, htoken⟩
    cases hj.symm.trans hj'
    exact hlost.elim (fun hne => hne hst) fun hne => hne htoken
  · intro hno
    by_cases hst : job.state = .active
    · exact .inr fun htoken => hno ⟨job, hj, hst, htoken⟩
    · exact .inl hst

theorem release_errs_iff (s : Store V) (now : Millis) (id : JobId) (token : String) :
    Errs (release s now id token) ↔ ¬ Holds s id token := by
  unfold Errs release
  split
  · rename_i hj
    refine ⟨fun _ hholds => ?_, fun _ => ⟨_, rfl⟩⟩
    obtain ⟨job, hj', _⟩ := hholds
    cases hj.symm.trans hj'
  · rename_i job hj
    rw [← not_holds hj]
    split
    · rename_i hlost
      exact ⟨fun _ => hlost, fun _ => ⟨_, rfl⟩⟩
    · rename_i hheld
      refine ⟨fun ⟨e, he⟩ => ?_, fun hlost => absurd hlost hheld⟩
      split at he <;> cases he

theorem ack_errs_iff (s : Store V) (now : Millis) (id : JobId) (token : String)
    (outcome : AckOutcome V) :
    Errs (ack s now id token outcome) ↔ ¬ Holds s id token ∨ AckOutcome.lacksId outcome = true := by
  unfold Errs ack
  split
  · rename_i hj
    refine ⟨fun _ => .inl fun hholds => ?_, fun _ => ⟨_, rfl⟩⟩
    obtain ⟨job, hj', _⟩ := hholds
    cases hj.symm.trans hj'
  · rename_i job hj
    rw [← not_holds hj]
    split
    · rename_i hlost
      exact ⟨fun _ => .inl hlost, fun _ => ⟨_, rfl⟩⟩
    · rename_i hheld
      split
      · rename_i hlacks
        exact ⟨fun _ => .inr hlacks, fun _ => ⟨_, rfl⟩⟩
      · rename_i hids
        refine ⟨fun ⟨e, he⟩ => (by cases he), fun h => ?_⟩
        exact h.elim (fun hlost => absurd hlost hheld) fun hlacks => absurd hlacks hids

/-- A call that fails changes nothing in the store, and `ack` and `release` fail exactly when the job
is missing or not active under the token, or a child of a fan-out lacks an id. -/
theorem failed_calls (s : Store V) (now : Millis) :
    (∀ op : Op V, Fails s now op → exec s now op = s) ∧
      (∀ id token outcome, Errs (ack s now id token outcome) ↔
        ¬ Holds s id token ∨ AckOutcome.lacksId outcome = true) ∧
      ∀ id token, Errs (release s now id token) ↔ ¬ Holds s id token :=
  ⟨fun _ h => h.unchanged, ack_errs_iff s now, release_errs_iff s now⟩

end EffectMq.Memory
