import EffectMq.JobStore
import EffectMq.Library.Calls

/-! # Batches of requests

The loop of `enqueueMany`, which the Redis and the Postgres driver write alike: an item with a dedup
policy runs on its own, the runs of plain items between such items are inserted as batches.
-/

namespace EffectMq
open Call (Simulates)
set_option autoImplicit false
set_option maxHeartbeats 250000

variable {V σ τ : Type}

/-- The results so far and the plain items that wait to be inserted. -/
structure Buffer (V : Type) where
  results : List EnqueueResult
  batch : List (EnqueueRequest V)

def flush (insertBatch : List (EnqueueRequest V) → Call StoreError σ (List EnqueueResult))
    (acc : Buffer V) : Call StoreError σ (List EnqueueResult) :=
  if acc.batch.isEmpty then pure acc.results
  else insertBatch acc.batch >>= fun results => pure (acc.results ++ results)

def bufferItem (insertBatch : List (EnqueueRequest V) → Call StoreError σ (List EnqueueResult))
    (enqueueOne : EnqueueRequest V → Call StoreError σ EnqueueResult) (acc : Buffer V)
    (request : EnqueueRequest V) : Call StoreError σ (Buffer V) :=
  if request.dedupe.isSome then
    flush insertBatch acc >>= fun results =>
      enqueueOne request >>= fun result => pure ⟨results ++ [result], []⟩
  else pure { acc with batch := acc.batch ++ [request] }

def enqueueManyWith (insertBatch : List (EnqueueRequest V) → Call StoreError σ (List EnqueueResult))
    (enqueueOne : EnqueueRequest V → Call StoreError σ EnqueueResult)
    (requests : List (EnqueueRequest V)) : Call StoreError σ (List EnqueueResult) :=
  requests.foldlM (bufferItem insertBatch enqueueOne) ⟨[], []⟩ >>= flush insertBatch

/-! ## One by one -/

section
variable {R : σ → τ → Prop} {P : EnqueueRequest V → Prop}
  {insertBatch : List (EnqueueRequest V) → Call StoreError σ (List EnqueueResult)}
  {enqueueOne : EnqueueRequest V → Call StoreError σ EnqueueResult}
  {one : EnqueueRequest V → Call StoreError τ EnqueueResult}

theorem flush_simulates {acc : Buffer V}
    (h : Simulates R (insertBatch acc.batch) (acc.batch.mapM one)) :
    Simulates R (flush insertBatch acc)
      (acc.batch.mapM one >>= fun results => pure (acc.results ++ results)) := by
  unfold flush
  split
  next hempty =>
    rw [List.isEmpty_iff.mp hempty, List.mapM_nil, pure_bind, List.append_nil]
    exact .pure _
  next => exact h.bind fun results => .pure _

/-- The items of the buffer and the requests still to come, in order. -/
theorem bufferItem_simulates
    (hbatch : ∀ batch, (∀ request ∈ batch, P request ∧ request.dedupe = none) →
      Simulates R (insertBatch batch) (batch.mapM one))
    (hone : ∀ request, P request → Simulates R (enqueueOne request) (one request))
    {requests : List (EnqueueRequest V)} (hrequests : ∀ request ∈ requests, P request)
    (acc : Buffer V) (hacc : ∀ request ∈ acc.batch, P request ∧ request.dedupe = none) :
    Simulates R
      (requests.foldlM (bufferItem insertBatch enqueueOne) acc >>= flush insertBatch)
      ((acc.batch ++ requests).mapM one >>= fun results => pure (acc.results ++ results)) := by
  induction requests generalizing acc with
  | nil =>
    rw [List.foldlM_nil, pure_bind, List.append_nil]
    exact flush_simulates (hbatch acc.batch hacc)
  | cons request requests ih =>
    have hhead := hrequests request List.mem_cons_self
    have htail : ∀ request ∈ requests, P request := fun r hr =>
      hrequests r (List.mem_cons_of_mem _ hr)
    rw [List.foldlM_cons, bufferItem]
    split
    next hdedupe =>
      have hrest : ∀ results, Simulates R
          (requests.foldlM (bufferItem insertBatch enqueueOne) ⟨results, []⟩ >>= flush insertBatch)
          (requests.mapM one >>= fun rest => pure (results ++ rest)) := fun results =>
        ih htail ⟨results, []⟩ fun _ h => absurd h List.not_mem_nil
      simp only [bind_assoc, pure_bind]
      rw [List.mapM_append]
      simp only [List.mapM_cons, bind_assoc, pure_bind]
      have hflush := (flush_simulates (hbatch acc.batch hacc)).bind
        fun results => (hone request hhead).bind fun result => hrest (results ++ [result])
      simpa only [bind_assoc, pure_bind, List.append_assoc, List.singleton_append] using hflush
    next hdedupe =>
      have hplain : request.dedupe = none := by simpa using hdedupe
      rw [pure_bind]
      have h := ih htail { acc with batch := acc.batch ++ [request] } fun r hr => by
        rcases List.mem_append.mp hr with hr | hr
        · exact hacc r hr
        · rw [List.mem_singleton.mp hr]
          exact ⟨hhead, hplain⟩
      simpa only [List.append_assoc, List.singleton_append] using h

/-- Enqueueing many is enqueueing one by one, wherever that holds of a batch of plain items. -/
theorem enqueueManyWith_simulates
    (hbatch : ∀ batch, (∀ request ∈ batch, P request ∧ request.dedupe = none) →
      Simulates R (insertBatch batch) (batch.mapM one))
    (hone : ∀ request, P request → Simulates R (enqueueOne request) (one request))
    {requests : List (EnqueueRequest V)} (hrequests : ∀ request ∈ requests, P request) :
    Simulates R (enqueueManyWith insertBatch enqueueOne requests) (requests.mapM one) := by
  have h := bufferItem_simulates hbatch hone hrequests ⟨[], []⟩
    fun _ h => absurd h List.not_mem_nil
  rw [List.nil_append] at h
  simpa only [enqueueManyWith, List.nil_append, bind_pure] using h

end

end EffectMq
