import EffectMq.Board
import EffectMq.MemoryJobStore.Retention

/-! # The in-memory driver on the board

The helpers of the driver as writes of the board. Wake-ups and the counter of generated ids are not
on it.
-/

namespace EffectMq.Memory
set_option autoImplicit false
set_option maxHeartbeats 250000

variable {V : Type}

def Store.board (s : Store V) : Board V where
  jobs := s.jobs.get?
  owed := s.toCore.owesCascades
  dedupes := s.dedupes.get?
  paused := s.paused
  outbox := s.outbox
  outboxSeq := s.outboxSeq
  seq := s.seq

@[simp] theorem board_signalWake (s : Store V) (queue : Option QueueName) :
    (signalWake s queue).board = s.board := by
  cases queue <;> rfl

@[simp] theorem board_putJob (s : Store V) (job : MemJob V) : (s.putJob job).board = s.board.put job := by
  have hjobs : (s.putJob job).jobs.get? = Function.update s.jobs.get? job.id (some job) := by
    funext id
    rw [Function.update_apply]
    exact putJob_get? s.toCore job id
  simp only [Store.board, Board.put, hjobs]
  rfl

theorem board_appendOutbox (s : Store V) (job : MemJob V) (outcome : TerminalState) :
    ({ s with toCore := s.toCore.appendOutbox job outcome } : Store V).board =
      s.board.post job outcome := by
  unfold Core.appendOutbox Board.post
  cases job.parent <;> rfl

theorem board_register (s : Store V) (key : String) (entry : DedupeEntry) :
    ({ s with dedupes := s.dedupes.set key entry } : Store V).board = s.board.register key entry := by
  have hget : (s.dedupes.set key entry).get? = Function.update s.dedupes.get? key (some entry) := by
    funext k
    rw [Function.update_apply, JsMap.get?_set]
  simp only [Store.board, Board.register, hget]

theorem board_setWindow (s : Store V) (key : String) (now : Millis) (ttlMs : Option (WithTop Millis)) :
    (setWindow s key now ttlMs).board = s.board.window key now ttlMs := by
  cases ttlMs with
  | none => rfl
  | some ttl =>
    have hget : (s.dedupes.modify key fun e => { e with expiresAt := some (now + ttl) }).get? =
        Function.update s.dedupes.get? key
          ((s.dedupes.get? key).map fun e => { e with expiresAt := some (now + ttl) }) := by
      funext k
      rw [Function.update_apply, JsMap.get?_modify]
    simp only [setWindow, Store.board, Board.window, hget]

theorem board_releaseDedupe (s : Store V) (job : MemJob V) (now : Millis) :
    (releaseDedupe s job now).board = s.board.free job now := by
  unfold releaseDedupe Board.free
  cases job.dedupeKey with
  | none => rfl
  | some k =>
    have hget : s.board.dedupes (dedupeMapKey job.name k) = s.dedupes.get? (dedupeMapKey job.name k) := rfl
    have hdelete : (s.dedupes.delete (dedupeMapKey job.name k)).get? =
        Function.update s.dedupes.get? (dedupeMapKey job.name k) none := by
      funext k
      rw [Function.update_apply, JsMap.get?_delete]
    dsimp only
    rw [hget]
    cases s.dedupes.get? (dedupeMapKey job.name k) with
    | none => rfl
    | some entry =>
      dsimp only
      split
      · simp only [Store.board, hdelete]
      · rfl

theorem board_deleteJob (s : Store V) (id : JobId) :
    ({ s with toCore := s.toCore.deleteJob id } : Store V).board = s.board.drop id := by
  have hjobs : (s.jobs.delete id).get? = Function.update s.jobs.get? id none := by
    funext id'
    rw [Function.update_apply, JsMap.get?_delete]
  have howed : (s.toCore.deleteJob id).owesCascades = Function.update s.toCore.owesCascades id false := by
    funext id'
    rw [Function.update_apply, Core.owesCascades, Core.deleteJob, JsMap.get?_delete]
    by_cases hid : id' = id
    · rw [if_pos hid, if_pos hid]
    · rw [if_neg hid, if_neg hid]
      rfl
  simp only [Store.board, Board.drop, howed]
  rw [← hjobs]
  rfl

theorem deleteUnowed_outbox (c : Core V) (ids : List JobId) :
    (c.deleteUnowed ids).outbox = c.outbox ∧ (c.deleteUnowed ids).outboxSeq = c.outboxSeq := by
  induction ids generalizing c with
  | nil => exact ⟨rfl, rfl⟩
  | cons id ids ih =>
    obtain ⟨houtbox, hseq⟩ := ih (if c.owesCascades id then c else c.deleteJob id)
    refine ⟨houtbox.trans ?_, hseq.trans ?_⟩ <;> split <;> rfl

/-- Retention deletes jobs and nothing else. -/
theorem board_applyKeep {s : Store V} {job : MemJob V} {state : TerminalState} {g : Group}
    (h : HoldsGroup s.toCore job.name state g) (hstate : job.state = state.toJobState) (now : Millis) :
    s.board.Trims ({ s with toCore := s.toCore.applyKeep job now } : Store V).board
      (g.Doomed (job.keep.bind (·.governing state)) now) := by
  refine ⟨applyKeep_prunes h hstate now, ?_⟩
  unfold Core.applyKeep
  cases keepPolicyFor job.keep job.state with
  | none => rfl
  | some policy =>
    dsimp only
    generalize keepVictims policy _ now = ids
    obtain ⟨houtbox, hseq⟩ := deleteUnowed_outbox s.toCore ids
    have howed : (s.toCore.deleteUnowed ids).owesCascades = s.toCore.owesCascades := by
      funext id
      exact deleteUnowed_owesCascades s.toCore ids id
    simp only [Store.board, houtbox, hseq, howed]

/-- A terminal transition, up to its retention. -/
theorem terminate_concludes (s : Store V) (job : MemJob V) (outcome : TerminalState) (now : Millis) :
    ∃ s₁ : Store V, s₁.board = s.board.conclude job outcome now ∧ s₁.jobs = (s.putJob job).jobs ∧
      s.terminate job outcome now = { s₁ with toCore := s₁.toCore.applyKeep job now } := by
  refine ⟨releaseDedupe { s.putJob job with toCore := (s.putJob job).toCore.appendOutbox job outcome }
    job now, ?_, ?_, rfl⟩
  · rw [board_releaseDedupe, board_appendOutbox, board_putJob, Board.conclude]
  · simp only [releaseDedupe_toCore]
    unfold Core.appendOutbox
    split <;> rfl

end EffectMq.Memory
