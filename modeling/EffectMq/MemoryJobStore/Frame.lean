import EffectMq.MemoryJobStore.Dedupe

/-! # What an operation leaves alone

`Aside f` says that `f` reads a part of the store that is none of the jobs, the rows and the outbox,
the dedup registry and the wake-up marks. The operations on jobs leave such a part as it is, but for
the counters that an insertion draws from (`Aside.exec`, `Aside.execDrawing`).
-/

namespace EffectMq.Memory
set_option autoImplicit false
set_option maxHeartbeats 250000

variable {V α : Type}

structure Aside (f : Store V → α) : Prop where
  core : ∀ (s : Store V) (c : Core V), f { s with toCore := c } = f s
  dedupes : ∀ (s : Store V) (d : JsMap String DedupeEntry), f { s with dedupes := d } = f s
  wake : ∀ (s : Store V) (queue : Option QueueName), f (signalWake s queue) = f s

/-- A part of the store that the two counters are no part of either. -/
structure Apart (f : Store V → α) : Prop extends Aside f where
  seq : ∀ (s : Store V) (n : ℕ), f { s with seq := n } = f s
  idCounter : ∀ (s : Store V) (n : ℕ), f { s with idCounter := n } = f s

variable {f : Store V → α}

/-! ## Helpers -/

theorem Aside.releaseDedupe (h : Aside f) (s : Store V) (job : MemJob V) (now : Millis) :
    f (releaseDedupe s job now) = f s := by
  unfold Memory.releaseDedupe
  split
  · rfl
  · simp only
    split
    · rfl
    · split
      · exact h.dedupes ..
      · rfl

theorem Aside.setWindow (h : Aside f) (s : Store V) (key : String) (now : Millis)
    (ttlMs : Option (WithTop Millis)) : f (setWindow s key now ttlMs) = f s := by
  unfold Memory.setWindow
  split
  · rfl
  · exact h.dedupes ..

theorem Aside.putJob (h : Aside f) (s : Store V) (job : MemJob V) : f (s.putJob job) = f s :=
  h.core ..

theorem Aside.terminate (h : Aside f) (s : Store V) (job : MemJob V) (outcome : TerminalState)
    (now : Millis) : f (s.terminate job outcome now) = f s := by
  unfold Store.terminate
  simp only
  rw [h.core, h.releaseDedupe, h.core, h.putJob]

theorem Aside.markCancelled (h : Aside f) (s : Store V) (job : MemJob V) (now : Millis) :
    f (markCancelled s job now) = f s := by
  unfold Memory.markCancelled
  simp only
  rw [h.terminate, h.core]

theorem Aside.settleFailFast (h : Aside f) (s : Store V) (now : Millis) (parent : MemJob V)
    (childKey : String) : f (settleFailFast s now parent childKey) = f s := by
  unfold Memory.settleFailFast
  simp only
  rw [h.terminate, h.core]

theorem Apart.makeRunnable (h : Apart f) (s : Store V) (job : MemJob V) (now : Millis) :
    f (makeRunnable s job now) = f s := by
  unfold Memory.makeRunnable
  simp only
  rw [h.wake, h.putJob, h.seq]

theorem Apart.insertJobRecord (h : Apart f) (s : Store V) (id : JobId) (request : EnqueueRequest V)
    (now : Millis) : f (insertJobRecord s id request now) = f s := by
  unfold Memory.insertJobRecord
  simp only
  rw [h.wake, h.putJob, h.seq]

theorem Apart.insertFresh (h : Apart f) (s : Store V) (now : Millis) (request : EnqueueRequest V)
    (id : JobId) : f (insertFresh s now request id) = f s := by
  unfold Memory.insertFresh
  simp only
  split
  · exact h.insertJobRecord ..
  · rw [h.dedupes, h.insertJobRecord]

/-! ## Operations on jobs -/

theorem Aside.cancelJob (h : Aside f) (s : Store V) (now : Millis) (id : JobId) :
    f (cancelJob s now id).2 = f s := by
  unfold Memory.cancelJob
  split
  · rfl
  · split
    · exact h.markCancelled ..
    · exact h.markCancelled ..
    · exact h.markCancelled ..
    · exact h.putJob ..
    · rfl

theorem Aside.cancelByDedupe (h : Aside f) (s : Store V) (now : Millis) (name key : String) :
    f (cancelByDedupe s now name key).2 = f s := by
  unfold Memory.cancelByDedupe
  split
  · rfl
  · rename_i entry _
    have hcancel := h.cancelJob s now entry.jobId
    split <;> rename_i hc <;> rw [hc] at hcancel <;> exact hcancel

theorem Aside.claim (h : Aside f) (s : Store V) (now : Millis) (options : ClaimOptions) :
    f (claim s now options).2 = f s := by
  have hdue : f (promoteDue s now) = f s := h.core s { s.toCore with jobs := (promoteDue s now).jobs }
  unfold Memory.claim
  simp only
  split
  · split
    · exact hdue
    · exact (h.putJob ..).trans hdue
  · exact hdue

theorem Aside.release (h : Aside f) (s : Store V) (now : Millis) (id : JobId) (token : String) :
    f (release s now id token).2 = f s := by
  unfold Memory.release
  split
  · rfl
  · split
    · rfl
    · split
      · exact h.markCancelled ..
      · simp only [h.wake, h.putJob]

theorem Aside.recoverJob (h : Aside f) (now : Millis) (maxStalledCount : ℤ)
    (acc : List Recovered × Store V) (id : JobId) :
    f (recoverJob now maxStalledCount acc id).2 = f acc.2 := by
  unfold Memory.recoverJob
  simp only
  split
  · rfl
  · split
    · split
      · rfl
      · split
        · exact h.markCancelled ..
        · split
          · exact (h.releaseDedupe ..).trans ((h.core ..).trans (h.putJob ..))
          · exact h.putJob ..
    · rfl

theorem Aside.recoverStalled (h : Aside f) (s : Store V) (now : Millis) (maxStalledCount : ℤ) :
    f (recoverStalled s now maxStalledCount).2 = f s := by
  have hfold : ∀ (ids : List JobId) (acc : List Recovered × Store V),
      f (ids.foldl (Memory.recoverJob now maxStalledCount) acc).2 = f acc.2 := by
    intro ids
    induction ids with
    | nil => exact fun _ => rfl
    | cons id ids ih => exact fun acc => (ih _).trans (h.recoverJob ..)
  unfold Memory.recoverStalled
  simp only
  split
  · exact (h.wake ..).trans (hfold ..)
  · exact hfold ..

theorem Aside.promote (h : Aside f) (s : Store V) (now : Millis) (id : JobId) :
    f (promote s now id).2 = f s := by
  unfold Memory.promote
  split
  · rfl
  · split
    · rfl
    · simp only [h.wake, h.putJob]

theorem Aside.remove (h : Aside f) (s : Store V) (id : JobId) : f (remove s id).2 = f s := by
  unfold Memory.remove
  split
  · rfl
  · split
    · rfl
    · exact h.core ..

/-- The operations that neither draw from a counter nor write a part of the store of their own. -/
def OnJobs : Op V → Prop
  | .claim _ | .release _ _ | .extendLocks _ _ | .recoverStalled _ | .cancel _ | .cancelByDedupe _ _
  | .promote _ | .deleteOutbox _ | .flowSweepWork _ | .markChildrenCascaded _ _ | .remove _
  | .sweepHistory _ => True
  | _ => False

theorem Aside.exec (h : Aside f) (s : Store V) (now : Millis) {op : Op V} (hop : OnJobs op) :
    f (exec s now op) = f s := by
  cases op with
  | claim options => exact h.claim s now options
  | release id token => exact h.release s now id token
  | recoverStalled maxStalledCount => exact h.recoverStalled s now maxStalledCount
  | cancel id => exact h.cancelJob s now id
  | cancelByDedupe name key => exact h.cancelByDedupe s now name key
  | promote id => exact h.promote s now id
  | remove id => exact h.remove s id
  | extendLocks locks durationMs =>
    show f (extendLocks s now locks durationMs).2 = f s
    rw [extendLocks_store, h.core]
  | deleteOutbox ids => exact h.core s { s.toCore with outbox := _ }
  | flowSweepWork options => exact h.core s { s.toCore with flowChildren := _ }
  | markChildrenCascaded flowId childKeys => exact h.core s { s.toCore with flowChildren := _ }
  | sweepHistory ttlByState => exact (h.dedupes ..).trans (h.core ..)
  | _ => exact hop.elim

/-! ## Operations that draw from a counter -/

theorem Apart.enqueueOne (h : Apart f) (s : Store V) (now : Millis) (request : EnqueueRequest V)
    (ids : IdSource) : f (enqueueOne s now request ids).2 = f s := by
  have hspec := enqueueOne_spec s now request ids
  generalize (Memory.enqueueOne s now request ids).1 = result at hspec
  generalize (Memory.enqueueOne s now request ids).2 = t at hspec ⊢
  cases hspec with
  | duplicate | exhausted | pending => rfl
  | replaced => exact (h.wake ..).trans ((h.setWindow ..).trans (h.putJob ..))
  | windowed =>
    split
    · exact h.setWindow ..
    · rfl
  | inserted counter => exact (h.insertFresh ..).trans (h.idCounter ..)

theorem Apart.ackFanOut (h : Apart f) (s : Store V) (now : Millis) (job : MemJob V)
    (failFast : Bool) (children : List (FlowChildSpec V)) :
    f (ackFanOut s now job failFast children) = f s := by
  unfold Memory.ackFanOut
  simp only [openManifest_eq]
  split
  · exact (h.markCancelled ..).trans (h.core s _)
  · split
    · exact (h.putJob ..).trans (h.core s _)
    · exact (h.makeRunnable ..).trans (h.core s _)

theorem Apart.ack (h : Apart f) (s : Store V) (now : Millis) (id : JobId) (token : String)
    (outcome : AckOutcome V) : f (ack s now id token outcome).2 = f s := by
  cases hres : (Memory.ack s now id token outcome).1 with
  | error e => rw [ack_error hres]
  | ok u =>
    obtain ⟨job, _, _, _, heq⟩ := ack_ok hres
    rw [heq]
    unfold ackOutcome
    cases outcome with
    | complete | fail | cancelled => exact h.terminate ..
    | fanOut failFast children => exact h.ackFanOut ..
    | retry delayMs exit =>
      simp only
      split
      · exact h.markCancelled ..
      · simp only [h.wake, h.putJob, h.seq]

theorem Apart.retry (h : Apart f) (s : Store V) (now : Millis) (id : JobId) :
    f (retry s now id).2 = f s := by
  unfold Memory.retry
  split
  · rfl
  · split
    · rfl
    · simp only [h.wake, h.putJob, h.seq]

theorem Apart.settleTouched (h : Apart f) (now : Millis) (reports : List (FlowChildReport V))
    (acc : List ReportResult × Store V) (entry : JobId × Touch) :
    f (settleTouched now reports acc entry).2 = f acc.2 := by
  unfold Memory.settleTouched
  simp only
  split
  · rfl
  · split
    · rfl
    · split
      · rfl
      · split
        · exact h.settleFailFast ..
        · split
          · exact h.makeRunnable ..
          · rfl

theorem Apart.recordChildResults (h : Apart f) (s : Store V) (now : Millis)
    (reports : List (FlowChildReport V)) : f (recordChildResults s now reports).2 = f s := by
  have hfold : ∀ (entries : List (JobId × Touch)) (acc : List ReportResult × Store V),
      f (entries.foldl (Memory.settleTouched now reports) acc).2 = f acc.2 := by
    intro entries
    induction entries with
    | nil => exact fun _ => rfl
    | cons entry entries ih => exact fun acc => (ih _).trans (h.settleTouched ..)
  exact (hfold _ _).trans (h.core s (recorded s reports).core)

/-- The operations on jobs that insert one or give one a new place. -/
def Drawing : Op V → Prop
  | .enqueue _ _ | .resumeEnqueue _ _ | .ack _ _ _ | .retry _ | .recordChildResults _ => True
  | _ => False

theorem Apart.exec (h : Apart f) (s : Store V) (now : Millis) {op : Op V}
    (hop : OnJobs op ∨ Drawing op) : f (exec s now op) = f s := by
  rcases hop with hop | hop
  · exact h.toAside.exec s now hop
  · cases op with
    | enqueue request ids => exact h.enqueueOne s now request ids
    | resumeEnqueue request candidate =>
      simp only [Memory.exec, resumeEnqueue]
      split
      · rfl
      · exact h.insertFresh ..
    | ack id token outcome => exact h.ack s now id token outcome
    | retry id => exact h.retry s now id
    | recordChildResults reports => exact h.recordChildResults s now reports
    | _ => exact hop.elim

end EffectMq.Memory
