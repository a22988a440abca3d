import EffectMq.Retention
import EffectMq.MemoryJobStore.Store

/-! # What two stores have in common

A `Board` is what a store holds, apart from how it finds it again: the jobs with their ledgers and
locks, the dedup entries, the paused queues and the undelivered reports. The in-memory driver is the
board with its wake-ups; the keyspace of the Redis driver spells it in hashes and lists.

The writes below are what the helpers of both drivers come to on the board, so two drivers agree on a
verb when they make the same writes.
-/

namespace EffectMq
set_option autoImplicit false
set_option maxHeartbeats 250000

variable {V : Type}

@[ext] structure Board (V : Type) where
  jobs : JobId → Option (Memory.MemJob V)
  owed : JobId → Bool
  dedupes : String → Option Memory.DedupeEntry
  paused : List QueueName
  outbox : List (OutboxEntry V)
  outboxSeq : ℕ
  seq : ℕ

namespace Board

def put (b : Board V) (job : Memory.MemJob V) : Board V :=
  { b with jobs := Function.update b.jobs job.id (some job) }

/-- A terminal job tells its parent. -/
def post (b : Board V) (job : Memory.MemJob V) (outcome : TerminalState) : Board V :=
  match job.parent with
  | none => b
  | some parent =>
    { b with
      outboxSeq := b.outboxSeq + 1
      outbox := b.outbox ++
        [{ id := b.outboxSeq + 1, flowName := parent.flowName,
           parentStoreKey := parent.parentStoreKey,
           report := { flowId := parent.flowId, childKey := parent.childKey, outcome,
                       exit := job.exit, failedReason := job.failedReason } }] }

/-- A terminal job frees its dedup key, unless a window is open. -/
def free (b : Board V) (job : Memory.MemJob V) (now : Millis) : Board V :=
  match job.dedupeKey with
  | none => b
  | some k =>
    match b.dedupes (Memory.dedupeMapKey job.name k) with
    | none => b
    | some entry =>
      if entry.jobId = job.id ∧ entry.spent now then
        { b with dedupes := Function.update b.dedupes (Memory.dedupeMapKey job.name k) none }
      else b

/-- The writes of a terminal transition before retention. -/
def conclude (b : Board V) (job : Memory.MemJob V) (outcome : TerminalState) (now : Millis) : Board V :=
  ((b.put job).post job outcome).free job now

def register (b : Board V) (key : String) (entry : Memory.DedupeEntry) : Board V :=
  { b with dedupes := Function.update b.dedupes key (some entry) }

/-- A window is opened, or moved. -/
def window (b : Board V) (key : String) (now : Millis) (ttlMs : Option (WithTop Millis)) : Board V :=
  match ttlMs with
  | none => b
  | some ttl =>
    { b with
      dedupes := Function.update b.dedupes key
        ((b.dedupes key).map fun entry => { entry with expiresAt := some (now + ttl) }) }

def drop (b : Board V) (id : JobId) : Board V :=
  { b with jobs := Function.update b.jobs id none, owed := Function.update b.owed id false }

/-- The doomed jobs are gone and nothing else is different. -/
structure Trims (b b' : Board V) (doomed : JobId → Prop) : Prop where
  jobs : Pruned b.jobs b'.jobs doomed
  rest : b' = { b with jobs := b'.jobs }

/-- What is left depends on the rule alone. -/
theorem Trims.eq {b b₁ b₂ : Board V} {doomed : JobId → Prop} (h₁ : b.Trims b₁ doomed)
    (h₂ : b.Trims b₂ doomed) : b₁ = b₂ := by
  have hjobs : b₁.jobs = b₂.jobs := by
    funext id
    by_cases hd : doomed id
    · rw [(h₁.jobs id).1 hd, (h₂.jobs id).1 hd]
    · rw [(h₁.jobs id).2 hd, (h₂.jobs id).2 hd]
  rw [h₁.rest, h₂.rest, hjobs]

end Board

end EffectMq
