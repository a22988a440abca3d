import Mathlib.Data.List.Lex
import EffectMq.Library.Ranks
import EffectMq.Library.Transition
import EffectMq.RedisJobStore.Retention
import EffectMq.RedisJobStore.FlowScripts

/-! # The dedup sweep of the Redis driver

A call looks at the first 200 ended windows and at the first 200 entries of score `+inf`, and the loop
stops at the first call that removes nothing. Ended windows leave the index, so all of them are
reached. An entry at `+inf` stays while its job is live, and 200 of them hide whatever comes behind. A
window that does not end is listed at `+inf` like an entry in pending mode, and goes like one.
-/

namespace EffectMq.Redis
set_option autoImplicit false
set_option maxHeartbeats 250000

variable {V : Type}

/-! ## The index of the entries -/

/-- The end of the window; `+inf` where it does not end, and in pending mode. -/
def DedupeHash.score (entry : DedupeHash) : WithTop ℤ := entry.expiresAt.getD ⊤

/-- `p:dedupes` lists the entries under their scores. -/
def Keyspace.DedupesIndexed (ks : Keyspace V) : Prop :=
  ∀ key, ks.dedupeIndex.score? key = (ks.dedupes.get? key).map DedupeHash.score

def Keyspace.registry (ks : Keyspace V) : JsMap String DedupeHash × ZSet (WithTop ℤ) String :=
  (ks.dedupes, ks.dedupeIndex)

theorem Keyspace.DedupesIndexed.of_registry {ks ks' : Keyspace V} (h : ks.DedupesIndexed)
    (heq : ks'.registry = ks.registry) : ks'.DedupesIndexed := by
  obtain ⟨hdedupes, hindex⟩ := Prod.mk.inj heq
  intro key
  rw [hindex, hdedupes]
  exact h key

theorem Keyspace.DedupesIndexed.write {ks ks' : Keyspace V} (h : ks.DedupesIndexed) {key : String}
    {entry : DedupeHash}
    (hget : ∀ k, ks'.dedupes.get? k = if k = key then some entry else ks.dedupes.get? k)
    (hscore : ks'.dedupeIndex = ks.dedupeIndex.add key entry.score) : ks'.DedupesIndexed := by
  intro k
  rw [hscore, ZSet.score?_add, hget]
  split
  · rfl
  · exact h k

theorem Keyspace.DedupesIndexed.drop {ks : Keyspace V} (h : ks.DedupesIndexed) (key : String) :
    (dropDedupe ks key).DedupesIndexed := by
  intro k
  rw [dropDedupe, ZSet.score?_rem, JsMap.get?_delete]
  split
  · rfl
  · exact h k

/-! ### What the scripts do to it -/

/-- A loop whose steps leave the entries alone. -/
theorem registry_foldl {α : Type} {f : Keyspace V → α → Keyspace V}
    (h : ∀ ks a, (f ks a).registry = ks.registry) (as : List α) (ks : Keyspace V) :
    (as.foldl f ks).registry = ks.registry := by
  induction as generalizing ks with
  | nil => rfl
  | cons a as ih => exact (ih (f ks a)).trans (h ks a)

/-- The same for a loop that also collects. -/
theorem registry_foldl_snd {α β : Type} {f : β × Keyspace V → α → β × Keyspace V}
    (h : ∀ acc a, (f acc a).2.registry = acc.2.registry) (as : List α) (acc : β × Keyspace V) :
    (as.foldl f acc).2.registry = acc.2.registry := by
  induction as generalizing acc with
  | nil => rfl
  | cons a as ih => exact (ih (f acc a)).trans (h acc a)

/-- Whether a script finishes or stops, what it leaves. -/
def Ends {β : Type} (P : Keyspace V → Prop) (left : β → Keyspace V) :
    Except (Keyspace V) β → Prop
  | .ok b => P (left b)
  | .error ks => P ks

theorem Ends.answer {α : Type} {P : Keyspace V → Prop} {r : Except (Keyspace V) (Keyspace V)}
    (h : Ends P id r) (a : α) : Ends P Prod.snd (r.map fun ks => (a, ks)) := by
  cases r with
  | ok ks => exact h
  | error ks => exact h

theorem Ends.foldlM {α β : Type} {P : Keyspace V → Prop} {left : β → Keyspace V}
    {f : β → α → Except (Keyspace V) β} (h : ∀ b a, P (left b) → Ends P left (f b a)) (as : List α)
    (b : β) (hb : P (left b)) : Ends P left (as.foldlM f b) := by
  induction as generalizing b with
  | nil => exact hb
  | cons a as ih =>
    have hstep := h b a hb
    rw [List.foldlM_cons]
    cases hf : f b a with
    | ok b' =>
      rw [hf] at hstep
      exact ih b' hstep
    | error ks =>
      rw [hf] at hstep
      exact hstep

theorem Ends.leaves {α : Type} {P : Keyspace V → Prop} {r : Except (Keyspace V) (α × Keyspace V)}
    (h : Ends P Prod.snd r) : P (leaves r) := by
  cases r with
  | ok b => exact h
  | error ks => exact h

theorem registry_deleteJob (ks : Keyspace V) (id : JobId) :
    (deleteJob ks id).registry = ks.registry := by
  cases hjob : ks.jobs.get? id with
  | none => rw [deleteJob_of_none hjob]
  | some job =>
    obtain ⟨_, _, _, hdelete, -⟩ := deleteJob_eq hjob
    rw [hdelete]
    rfl

theorem registry_deleteUnowed (ks : Keyspace V) (ids : List JobId) :
    (deleteUnowed ks ids).registry = ks.registry := by
  refine registry_foldl (fun ks id => ?_) ids ks
  split
  · rfl
  · exact registry_deleteJob ks id

theorem registry_appendOutbox (ks : Keyspace V) (id : JobId) (outcome : TerminalState) :
    (appendOutbox ks id outcome).registry = ks.registry := by
  unfold appendOutbox
  split
  · rfl
  · split <;> rfl

theorem registry_markRowCancelled (flowId : JobId) (acc : Keyspace V × ℕ) (key : String) :
    (markRowCancelled flowId acc key).1.registry = acc.1.registry := by
  unfold markRowCancelled
  dsimp only
  split
  · rfl
  · split <;> rfl

theorem registry_settleMarkRows (ks : Keyspace V) (flowId : JobId) :
    (settleMarkRows ks flowId).registry = ks.registry := by
  have hfold : ∀ (keys : List String) (acc : Keyspace V × ℕ),
      (keys.foldl (markRowCancelled flowId) acc).1.registry = acc.1.registry := by
    intro keys
    induction keys with
    | nil => exact fun _ => rfl
    | cons key keys ih => exact fun acc => (ih _).trans (registry_markRowCancelled flowId acc key)
  exact hfold (ks.flowIndex flowId).members (ks, 0)

theorem registry_insertJobRow (indexes : IndexConfig) (ks : Keyspace V) (id : JobId)
    (request : EnqueueRequest V) (dedupeKey : String) (now : ℤ) :
    (insertJobRow indexes ks id request dedupeKey now).registry = ks.registry := by
  unfold insertJobRow
  dsimp only
  split <;> rfl

theorem insertJobRow_jobs (indexes : IndexConfig) (ks : Keyspace V) (id : JobId)
    (request : EnqueueRequest V) (dedupeKey : String) (now : ℤ) :
    (insertJobRow indexes ks id request dedupeKey now).jobs =
      ks.jobs.set id (jobHash id request dedupeKey now (ks.seq + 1)) ∧
    (insertJobRow indexes ks id request dedupeKey now).seq = ks.seq + 1 := by
  unfold insertJobRow
  dsimp only
  split <;> exact ⟨rfl, rfl⟩

theorem registry_autoId (tries : ℕ) (ks : Keyspace V) :
    (autoId tries ks).2.registry = ks.registry := by
  induction tries generalizing ks with
  | zero => rfl
  | succ tries ih =>
    unfold autoId
    dsimp only
    split
    · exact ih _
    · rfl

theorem registry_resolveId (ks : Keyspace V) (mode : IdMode) (id : JobId) :
    (resolveId ks mode id).2.registry = ks.registry := by
  cases mode with
  | auto => exact registry_autoId 5 ks
  | user => rfl
  | generated => rfl

theorem registry_advanceSchedule (ks : Keyspace V) (key : ScheduleKey)
    (expectedRunAt nextRunAt : ℤ) :
    (advanceSchedule ks key expectedRunAt nextRunAt).2.registry = ks.registry := by
  unfold advanceSchedule
  split
  · rfl
  · split <;> rfl

theorem registry_indexInto (kind : IndexKind) (ks : Keyspace V) (id : JobId) :
    (indexInto kind ks id).registry = ks.registry := by
  unfold indexInto
  split
  · rfl
  · cases kind <;> rfl

namespace Keyspace.DedupesIndexed

variable {ks : Keyspace V} (h : ks.DedupesIndexed)

include h

theorem setWindow {key : String} {entry : DedupeHash} (hentry : ks.dedupes.get? key = some entry)
    (now : ℤ) (ttlMs : Option (WithTop ℤ)) : (Redis.setWindow ks key now ttlMs).DedupesIndexed := by
  cases ttlMs with
  | none => exact h
  | some ttl =>
    have hset : ∀ k, (Redis.setWindow ks key now (some ttl)).dedupes.get? k =
        if k = key then some { entry with expiresAt := some (now + ttl) } else ks.dedupes.get? k := by
      intro k
      rw [Redis.setWindow, JsMap.get?_modify, hentry]
      rfl
    exact h.write hset rfl

theorem registerDedupe (now : ℤ) (name : String) (dedupe : DedupePolicy) (id : JobId) :
    (Redis.registerDedupe ks now name dedupe id).DedupesIndexed := by
  have hget : ∀ k, (Redis.registerDedupe ks now name dedupe id).dedupes.get? k =
      if k = dedupeStoreKey name dedupe.key then
        some ⟨id, dedupe.ttlMs.map fun ttl => now + ttl⟩
      else ks.dedupes.get? k := fun _ => JsMap.get?_set ..
  exact h.write hget rfl

theorem releaseDedupe (name dedupeKey : String) (id : JobId) (now : ℤ) :
    (Redis.releaseDedupe ks name dedupeKey id now).DedupesIndexed := by
  unfold Redis.releaseDedupe
  split
  · exact h
  · dsimp only
    split
    · exact h
    · split
      · exact h.drop (dedupeStoreKey name dedupeKey)
      · exact h

theorem applyKeep (name : String) (state : TerminalState) (keep : Option KeepPolicy) (now : ℤ) :
    Ends Keyspace.DedupesIndexed id (Redis.applyKeep ks name state keep now) := by
  unfold Redis.applyKeep
  split
  · exact h
  · rename_i policy _
    have hage : Ends (β := Keyspace V) (fun ks' => ks'.registry = ks.registry) id
        (applyAge ks name state.toJobState policy now) := by
      unfold applyAge
      split
      · rfl
      · split
        · rfl
        · exact registry_deleteUnowed ..
    cases hresult : applyAge ks name state.toJobState policy now with
    | error ks' =>
      rw [hresult] at hage
      exact h.of_registry hage
    | ok ks' =>
      rw [hresult] at hage
      refine h.of_registry (Eq.trans ?_ hage)
      unfold id applyCount
      split
      · rfl
      · exact registry_deleteUnowed ..

theorem conclude (id' : JobId) (name : String) (state : TerminalState) (outcome : AttemptOutcome)
    (startedAt : Option ℤ) (exit : Option V) (now : ℤ) :
    Ends Keyspace.DedupesIndexed id
      (Redis.conclude ks id' name state outcome startedAt exit now) := by
  have hposted : (appendOutbox (appendAttempt ks id' outcome startedAt now exit) id' state).DedupesIndexed :=
    h.of_registry (registry_appendOutbox ..)
  exact (hposted.releaseDedupe name _ id' now).applyKeep name state _ now

theorem finishCancelled (id' : JobId) (queue : QueueName) (name : String) (startedAt : Option ℤ)
    (now : ℤ) :
    Ends Keyspace.DedupesIndexed id (Redis.finishCancelled ks id' queue name startedAt now) := by
  apply Keyspace.DedupesIndexed.conclude
  exact h.of_registry rfl

theorem finish (id' : JobId) (job : JobHash V) (state : TerminalState) (storeExit : Option (Option V))
    (outcome : AttemptOutcome) (ledgerExit : Option V) (now : ℤ) :
    Ends Keyspace.DedupesIndexed id
      (Redis.finish ks id' job state storeExit outcome ledgerExit now) := by
  apply Keyspace.DedupesIndexed.conclude
  exact h.of_registry rfl

theorem enqueue (indexes : IndexConfig) (mode : IdMode) (id : JobId) (request : EnqueueRequest V)
    (now : ℤ) : (Redis.enqueue indexes ks mode id request now).2.DedupesIndexed := by
  unfold Redis.enqueue
  split
  · exact h
  · split
    · rename_i answer hanswer
      obtain ⟨dedupe, _, hdecision⟩ := Option.bind_eq_some_iff.mp hanswer
      unfold dedupeDecision at hdecision
      dsimp only at hdecision
      split at hdecision
      · cases hdecision
      · rename_i entry hentry
        split at hdecision
        · -- the replaced job changes, then the window
          obtain rfl := Option.some.inj hdecision
          dsimp only
          apply Keyspace.DedupesIndexed.setWindow
          · exact h.of_registry rfl
          · exact hentry
        · split at hdecision
          · obtain rfl := Option.some.inj hdecision
            dsimp only
            split
            · exact h.setWindow hentry now dedupe.ttlMs
            · exact h
          · split at hdecision
            · obtain rfl := Option.some.inj hdecision
              exact h
            · cases hdecision
    · have hresolved := registry_resolveId ks mode id
      split
      · rename_i ks' hid
        rw [hid] at hresolved
        exact h.of_registry hresolved
      · rename_i id' ks' hid
        rw [hid] at hresolved
        dsimp only
        have hinserted := fun dedupeKey => h.of_registry
          ((registry_insertJobRow indexes ks' id' request dedupeKey now).trans hresolved)
        split
        · exact hinserted _
        · exact (hinserted _).registerDedupe now request.name _ id'

theorem landManifest (id' : JobId) (job : JobHash V) (chunk : FanOutChunk V) (now : ℤ) :
    Ends Keyspace.DedupesIndexed id (Redis.landManifest ks id' job chunk now) := by
  unfold Redis.landManifest
  dsimp only
  split
  · apply Keyspace.DedupesIndexed.finishCancelled
    exact h.of_registry (registry_settleMarkRows ..)
  · split
    · exact h.of_registry rfl
    · exact h.of_registry rfl

theorem stageRows (id' : JobId) (chunk : FanOutChunk V) (now : ℤ) :
    (Redis.stageRows ks id' chunk now).DedupesIndexed := by
  have hcleared : (if chunk.clearStaged then dropRows ks id' else ks).DedupesIndexed := by
    split
    · obtain ⟨_, _, _, hdrop, -⟩ := dropRows_spec ks id'
      rw [hdrop]
      exact h.of_registry rfl
    · exact h
  apply hcleared.of_registry
  apply registry_foldl
  exact fun _ _ => rfl

theorem fanOut (id' : JobId) (token : String) (chunk : FanOutChunk V) (now : ℤ) :
    (leaves (Redis.fanOut ks id' token chunk now)).DedupesIndexed := by
  apply Ends.leaves
  unfold Redis.fanOut
  split
  · exact h
  · rename_i job _
    split
    · exact h
    · have hrows : (if job.flow = none then Redis.stageRows ks id' chunk now else ks).DedupesIndexed := by
        split
        · exact h.stageRows id' chunk now
        · exact h
      dsimp only
      split
      · exact (hrows.landManifest id' job chunk now).answer _
      · exact hrows

theorem ack (id' : JobId) (token : String) (outcome : Settled V) (now : ℤ) :
    (leaves (Redis.ack ks id' token outcome now)).DedupesIndexed := by
  apply Ends.leaves
  unfold Redis.ack
  split
  · exact h
  · split
    · exact h
    · dsimp only
      apply Ends.answer
      have htaken : (remActive (hset ks id' fun job =>
          { job with attemptsMade := job.attemptsMade + 1 }) id').DedupesIndexed := h.of_registry rfl
      split
      · exact htaken.finish ..
      · exact htaken.finish ..
      · exact htaken.finish ..
      · split
        · exact htaken.finish ..
        · apply htaken.of_registry
          unfold id requeue
          dsimp only
          split <;> rfl

theorem release (id' : JobId) (token : String) (now : ℤ) :
    (leaves (Redis.release ks id' token now)).DedupesIndexed := by
  apply Ends.leaves
  unfold Redis.release
  split
  · exact h
  · split
    · exact h
    · dsimp only
      split
      · apply Ends.answer
        apply Keyspace.DedupesIndexed.finishCancelled
        exact h.of_registry rfl
      · exact h.of_registry rfl

theorem recoverJob (now maxStalledCount : ℤ) (recovered : List Recovered) (id' : JobId) :
    Ends Keyspace.DedupesIndexed Prod.snd
      (Redis.recoverJob now maxStalledCount (recovered, ks) id') := by
  unfold Redis.recoverJob
  dsimp only
  split
  · exact h
  · split
    · exact h
    · split
      · apply Ends.answer
        apply Keyspace.DedupesIndexed.finishCancelled
        exact h.of_registry rfl
      · split
        · change (Redis.releaseDedupe _ _ _ _ _).DedupesIndexed
          apply Keyspace.DedupesIndexed.releaseDedupe
          exact h.of_registry (registry_appendOutbox ..)
        · exact h.of_registry rfl

theorem cancel (id' : JobId) (now : ℤ) :
    (leaves (Redis.cancel ks id' now)).DedupesIndexed := by
  apply Ends.leaves
  unfold Redis.cancel
  split
  · exact h
  · rename_i job _
    have hmarked : (if job.state = .waitingChildren then settleMarkRows ks id' else ks).DedupesIndexed := by
      split
      · exact h.of_registry (registry_settleMarkRows ks id')
      · exact h
    generalize (if job.state = .waitingChildren then settleMarkRows ks id' else ks) = marked
      at hmarked ⊢
    split
    · exact h.of_registry rfl
    · apply Ends.answer
      apply Keyspace.DedupesIndexed.conclude
      exact hmarked.of_registry rfl
    · apply Ends.answer
      apply Keyspace.DedupesIndexed.conclude
      exact hmarked.of_registry rfl
    · apply Ends.answer
      apply Keyspace.DedupesIndexed.conclude
      exact hmarked.of_registry rfl
    · exact h

theorem settleTouched (now : ℤ) (replies : List RecordReply) (entry : JobId × Touch) :
    Ends Keyspace.DedupesIndexed Prod.snd (Redis.settleTouched now (replies, ks) entry) := by
  unfold Redis.settleTouched
  dsimp only
  split
  · exact h
  · split
    · exact h
    · split
      · exact h
      · split
        · apply Ends.answer
          apply Keyspace.DedupesIndexed.conclude
          exact h.of_registry (registry_settleMarkRows ..)
        · split
          · exact h.of_registry rfl
          · exact h

theorem recordChildResults (reports : List (ReportItem V)) (now : ℤ) :
    (leaves (Redis.recordChildResults ks reports now)).DedupesIndexed := by
  have hrecorded : ∀ (entries : List (ReportItem V × ℕ)) (acc : RecordState V),
      (entries.foldl recordReport acc).ks.registry = acc.ks.registry := by
    intro entries
    induction entries with
    | nil => exact fun _ => rfl
    | cons entry entries ih =>
      intro acc
      refine (ih (recordReport acc entry)).trans ?_
      unfold recordReport
      dsimp only
      split
      · rfl
      · split <;> rfl
  apply Ends.leaves
  apply Ends.foldlM
  · exact fun acc entry hacc => hacc.settleTouched now acc.1 entry
  · exact h.of_registry (hrecorded ..)

theorem sweepDedupes (limit : ℕ) (now : ℤ) : (Redis.sweepDedupes ks limit now).2.DedupesIndexed := by
  have hexpired : ∀ (keys : List String) {ks : Keyspace V}, ks.DedupesIndexed →
      (keys.foldl dropDedupe ks).DedupesIndexed := by
    intro keys
    induction keys with
    | nil => exact fun h => h
    | cons key keys ih => exact fun h => ih (h.drop key)
  have hpointers : ∀ (keys : List String) {acc : ℕ × Keyspace V}, acc.2.DedupesIndexed →
      (keys.foldl sweepPointer acc).2.DedupesIndexed := by
    intro keys
    induction keys with
    | nil => exact fun h => h
    | cons key keys ih =>
      intro acc hacc
      apply ih
      unfold sweepPointer
      dsimp only
      split
      · exact hacc.drop key
      · exact hacc
  exact hpointers _ (hexpired _ h)

end Keyspace.DedupesIndexed

/-- Every script keeps the index. -/
theorem run_dedupesIndexed (indexes : IndexConfig) {ks : Keyspace V} (now : ℤ) (script : Script V)
    (h : ks.DedupesIndexed) : (ks.run indexes now script).DedupesIndexed := by
  cases script with
  | enqueue mode id request => exact h.enqueue indexes mode id request now
  | enqueueMany items =>
    apply h.of_registry
    apply registry_foldl_snd
    intro acc item
    unfold enqueueItem
    dsimp only
    split
    · rfl
    · have hresolved := registry_resolveId acc.2 item.mode item.id
      split
      · rename_i hid
        rw [hid] at hresolved
        exact hresolved
      · rename_i hid
        rw [hid] at hresolved
        split
        · exact hresolved
        · exact (registry_insertJobRow ..).trans hresolved
  | claim options =>
    have hpromoted : (promoteDue ks options.queue now).registry = ks.registry := by
      apply registry_foldl
      exact fun _ _ => rfl
    apply h.of_registry
    change (claim ks options now).2.registry = ks.registry
    unfold claim
    dsimp only
    split
    · exact hpromoted
    · split
      · exact hpromoted
      · split <;> exact hpromoted
  | ack id token outcome => exact h.ack id token outcome now
  | fanOut id token chunk => exact h.fanOut id token chunk now
  | release id token => exact h.release id token now
  | extendLocks locks durationMs =>
    apply h.of_registry
    apply registry_foldl_snd
    intro acc lock
    unfold extendLock
    dsimp only
    split
    · rfl
    · split
      · rfl
      · split <;> rfl
  | recoverStalled maxStalledCount =>
    apply Ends.leaves
    apply Ends.foldlM
    · exact fun acc id hacc => hacc.recoverJob now maxStalledCount acc.1 id
    · exact h
  | remove id =>
    apply h.of_registry
    change (remove ks id).2.registry = ks.registry
    unfold remove
    split
    · rfl
    · split
      · rfl
      · exact registry_deleteJob ks id
  | retry id =>
    apply h.of_registry
    change (retry ks id now).2.registry = ks.registry
    unfold retry
    split
    · rfl
    · split <;> rfl
  | cancel id => exact h.cancel id now
  | promote id =>
    apply h.of_registry
    change (promote ks id now).2.registry = ks.registry
    unfold promote
    split
    · rfl
    · split <;> rfl
  | pause queue =>
    apply h.of_registry
    change (pause ks queue).registry = ks.registry
    unfold pause
    split <;> rfl
  | resume queue => exact h.of_registry rfl
  | upsertSchedule schedule => exact h.of_registry rfl
  | removeSchedule key => exact h.of_registry rfl
  | advanceSchedule key expectedRunAt nextRunAt =>
    apply h.of_registry
    exact registry_advanceSchedule ks key expectedRunAt nextRunAt
  | tickSchedule key expectedRunAt nextRunAt id request =>
    have hadvanced := registry_advanceSchedule ks key expectedRunAt nextRunAt
    apply h.of_registry
    change (tickSchedule indexes ks key expectedRunAt nextRunAt id request now).2.registry = _
    unfold tickSchedule
    split
    · rename_i hresult
      rw [hresult] at hadvanced
      exact hadvanced
    · rename_i hresult
      rw [hresult] at hadvanced
      split
      · exact hadvanced
      · exact (registry_insertJobRow ..).trans hadvanced
  | recordChildResults reports => exact h.recordChildResults reports now
  | flowSweepWork pendingAgeMs limit =>
    apply h.of_registry
    refine registry_foldl_snd (fun acc member => ?_) _ ([], ks)
    unfold sweepPending
    dsimp only
    split
    · rfl
    · split
      · rfl
      · split <;> rfl
  | markChildrenCascaded flowId childKeys =>
    apply h.of_registry
    apply registry_foldl
    exact fun _ _ => rfl
  | deleteOutbox ids => exact h.of_registry rfl
  | sweepState state ttl limit offset =>
    apply h.of_registry
    apply registry_foldl_snd
    intro acc member
    unfold sweepMember
    dsimp only
    split
    · rfl
    · split
      · rfl
      · split
        · exact registry_deleteJob acc.2 member.1
        · rfl
  | sweepDedupes limit => exact h.sweepDedupes limit now
  | indexMembers kind ids =>
    apply h.of_registry
    apply registry_foldl
    exact fun ks id => registry_indexInto kind ks id
  | indexTailPage kind min offset pageSize =>
    apply h.of_registry
    apply registry_foldl
    exact fun ks id => registry_indexInto kind ks id
  | setReady kind bootAt => exact h.of_registry rfl

/-! ## One call -/

/-- Whether the entry still holds its key. -/
def Keyspace.alive (ks : Keyspace V) (now : ℤ) (entry : DedupeHash) : Bool :=
  match entry.expiresAt with
  | some t => decide (now < t)
  | none => (ks.jobs.get? entry.jobId).any fun job => !job.state.isTerminal

/-- A pointer at a job that is gone or terminal. -/
def Keyspace.dead (ks : Keyspace V) (key : String) : Bool :=
  ((ks.dedupes.get? key).bind fun entry => ks.jobs.get? entry.jobId).all fun job =>
    job.state.isTerminal

def Keyspace.ended (ks : Keyspace V) (now : ℤ) : List String :=
  ks.dedupeIndex.range fun t => decide (t ≤ now)

/-- What the script takes for pending-mode entries: windows that do not end are among them. -/
def Keyspace.pendings (ks : Keyspace V) : List String :=
  ks.dedupeIndex.range fun t => decide (t = ⊤)

def drops (ks : Keyspace V) (keys : List String) : Keyspace V := keys.foldl dropDedupe ks

theorem drops_jobs (ks : Keyspace V) (keys : List String) : (drops ks keys).jobs = ks.jobs := by
  induction keys generalizing ks with
  | nil => rfl
  | cons key keys ih => exact ih (dropDedupe ks key)

theorem drops_get? (ks : Keyspace V) (keys : List String) (key : String) :
    (drops ks keys).dedupes.get? key = if key ∈ keys then none else ks.dedupes.get? key := by
  induction keys generalizing ks with
  | nil => simp [drops]
  | cons k keys ih =>
    refine (ih (dropDedupe ks k)).trans ?_
    rw [dropDedupe, JsMap.get?_delete]
    by_cases hk : key = k <;> simp [hk]

theorem range_drops (ks : Keyspace V) (keys : List String) (p : WithTop ℤ → Bool) :
    (drops ks keys).dedupeIndex.range p =
      (ks.dedupeIndex.range p).filter fun key => decide (key ∉ keys) := by
  induction keys generalizing ks with
  | nil => simp [drops]
  | cons k keys ih =>
    refine (ih (dropDedupe ks k)).trans ?_
    rw [dropDedupe, ZSet.range_rem, List.filter_filter]
    apply List.filter_congr
    intro key _
    simp [Bool.and_comm]

theorem drops_dead (ks : Keyspace V) {keys : List String} {key : String} (h : key ∉ keys) :
    (drops ks keys).dead key = ks.dead key := by
  rw [Keyspace.dead, drops_get?, if_neg h, drops_jobs, Keyspace.dead]

theorem drops_indexed {ks : Keyspace V} (h : ks.DedupesIndexed) (keys : List String) :
    (drops ks keys).DedupesIndexed := by
  induction keys generalizing ks with
  | nil => exact h
  | cons key keys ih => exact ih (h.drop key)

theorem card_drops_le (ks : Keyspace V) (keys : List String) :
    (drops ks keys).dedupeIndex.card ≤ ks.dedupeIndex.card := by
  induction keys generalizing ks with
  | nil => exact le_rfl
  | cons key keys ih => exact (ih (dropDedupe ks key)).trans (List.length_filter_le _ _)

theorem card_drops_lt {ks : Keyspace V} {keys : List String} (hne : keys ≠ [])
    (hmem : ∀ key ∈ keys, key ∈ ks.dedupeIndex.members) :
    (drops ks keys).dedupeIndex.card < ks.dedupeIndex.card := by
  cases keys with
  | nil => exact absurd rfl hne
  | cons key keys =>
    exact (card_drops_le (dropDedupe ks key) keys).trans_lt
      (ZSet.card_rem_lt (hmem key List.mem_cons_self))

/-- Over distinct keys, the dead pointers go. -/
theorem foldl_sweepPointer {keys : List String} (hnodup : keys.Nodup) (n : ℕ) (ks : Keyspace V) :
    keys.foldl sweepPointer (n, ks) =
      (n + (keys.filter ks.dead).length, drops ks (keys.filter ks.dead)) := by
  induction keys generalizing n ks with
  | nil => rfl
  | cons key keys ih =>
    rw [List.nodup_cons] at hnodup
    rw [List.foldl_cons, List.filter_cons]
    by_cases hdead : ks.dead key = true
    · have hstep : sweepPointer (n, ks) key = (n + 1, dropDedupe ks key) := if_pos hdead
      have hrest : keys.filter (dropDedupe ks key).dead = keys.filter ks.dead := by
        apply List.filter_congr
        intro k hk
        refine @drops_dead V ks [key] k fun hmem => hnodup.1 ?_
        rw [← List.mem_singleton.mp hmem]
        exact hk
      rw [hstep, ih hnodup.2, hrest, if_pos hdead, List.length_cons, Nat.add_right_comm,
        Nat.add_assoc]
      rfl
    · have hstep : sweepPointer (n, ks) key = (n, ks) := if_neg hdead
      rw [hstep, ih hnodup.2, if_neg hdead]

/-- The entries a call removes. -/
def Keyspace.swept (ks : Keyspace V) (limit : ℕ) (now : ℤ) : List String :=
  (ks.ended now).take limit ++ (ks.pendings.take limit).filter ks.dead

/-- The index lists the entries whose score is in the range. -/
theorem mem_dedupeIndex {ks : Keyspace V} (h : ks.DedupesIndexed) {p : WithTop ℤ → Bool} {key : String} :
    key ∈ ks.dedupeIndex.range p ↔
      ∃ entry, ks.dedupes.get? key = some entry ∧ p entry.score = true := by
  rw [ZSet.mem_range]
  simp only [h key, Option.map_eq_some_iff]
  constructor
  · rintro ⟨s, ⟨entry, hentry, rfl⟩, hp⟩
    exact ⟨entry, hentry, hp⟩
  · rintro ⟨entry, hentry, hp⟩
    exact ⟨_, ⟨entry, hentry, rfl⟩, hp⟩

theorem mem_pendings {ks : Keyspace V} (h : ks.DedupesIndexed) {key : String} :
    key ∈ ks.pendings ↔ ∃ entry, ks.dedupes.get? key = some entry ∧ entry.score = ⊤ := by
  simpa [Keyspace.pendings] using mem_dedupeIndex h (p := fun t => decide (t = ⊤))

theorem mem_ended {ks : Keyspace V} (h : ks.DedupesIndexed) {now : ℤ} {key : String} :
    key ∈ ks.ended now ↔ ∃ entry, ks.dedupes.get? key = some entry ∧ entry.score ≤ now := by
  simpa [Keyspace.ended] using mem_dedupeIndex h (p := fun t => decide (t ≤ (now : WithTop ℤ)))

theorem not_ended_of_pending {ks : Keyspace V} (h : ks.DedupesIndexed) (now : ℤ) {key : String}
    (hpending : key ∈ ks.pendings) : key ∉ ks.ended now := by
  intro hended
  obtain ⟨entry, hentry, htop⟩ := (mem_pendings h).mp hpending
  obtain ⟨entry', hentry', hle⟩ := (mem_ended h).mp hended
  obtain rfl := Option.some.inj (hentry.symm.trans hentry')
  rw [htop] at hle
  exact absurd (WithTop.coe_lt_top now) (not_lt.mpr hle)

theorem sweepDedupes_eq {ks : Keyspace V} (h : ks.DedupesIndexed) (limit : ℕ) (now : ℤ) :
    sweepDedupes ks limit now = ((ks.swept limit now).length, drops ks (ks.swept limit now)) := by
  have hapart : ∀ key ∈ ks.pendings, key ∉ (ks.ended now).take limit := fun key hkey hended =>
    not_ended_of_pending h now hkey (List.mem_of_mem_take hended)
  have hpendings : (drops ks ((ks.ended now).take limit)).pendings = ks.pendings := by
    refine (range_drops ..).trans (List.filter_eq_self.mpr ?_)
    exact fun key hkey => decide_eq_true (hapart key hkey)
  have hdead : (ks.pendings.take limit).filter (drops ks ((ks.ended now).take limit)).dead =
      (ks.pendings.take limit).filter ks.dead := by
    apply List.filter_congr
    intro key hkey
    exact drops_dead ks (hapart key (List.mem_of_mem_take hkey))
  have hfold := @foldl_sweepPointer V (ks.pendings.take limit) ((ks.dedupeIndex.nodup_range _).sublist (List.take_sublist _ _)) 0
    (drops ks ((ks.ended now).take limit))
  rw [hdead, Nat.zero_add] at hfold
  have hcall : sweepDedupes ks limit now =
      let swept := ((drops ks ((ks.ended now).take limit)).pendings.take limit).foldl sweepPointer
        (0, drops ks ((ks.ended now).take limit))
      (((ks.ended now).take limit).length + swept.1, swept.2) := rfl
  rw [hcall, hpendings, hfold]
  refine Prod.ext ?_ ?_
  · exact (List.length_append ..).symm
  · exact (List.foldl_append ..).symm

/-! ## The loop -/

/-- A keyspace with what is left of `p:finished`, the one finished set of versions before 0.3. -/
structure Unsplit (V : Type) extends Keyspace V where
  unsplit : ZSet ℤ JobId

/-- A member moves to the set of its state; an orphan is dropped. -/
def migrateMember (s : Unsplit V) (member : JobId × ℤ) : Unsplit V :=
  let (id, finishedAt) := member
  let s := match (s.jobs.get? id).bind fun job => job.state.terminal? with
    | none => s
    | some state =>
      { s with
        finished := upd s.finished state.toJobState
          ((s.finished state.toJobState).add id finishedAt) }
  { s with unsplit := s.unsplit.rem id }

/-- One call of the script, the migration included. -/
def Unsplit.sweepDedupes (s : Unsplit V) (limit : ℕ) (now : ℤ) : ℕ × Unsplit V :=
  let legacy := s.unsplit.withScores.take limit
  let s := legacy.foldl migrateMember s
  let (removed, ks) := Redis.sweepDedupes s.toKeyspace limit now
  (legacy.length + removed, { s with toKeyspace := ks })

theorem Unsplit.sweepDedupes_migrated (s : Unsplit V) (limit : ℕ) (now : ℤ) :
    s.sweepDedupes limit now =
      let migrated := (s.unsplit.withScores.take limit).foldl migrateMember s
      ((s.unsplit.withScores.take limit).length +
          (Redis.sweepDedupes migrated.toKeyspace limit now).1,
        { migrated with toKeyspace := (Redis.sweepDedupes migrated.toKeyspace limit now).2 }) := rfl

/-- `while ((yield* evalSweepDedupes(prefix, 200, now)) !== "0")`, in so many calls. -/
def sweepDedupesLoop (now : ℤ) : ℕ → Unsplit V → Option (Unsplit V)
  | 0, _ => none
  | calls + 1, s =>
    match s.sweepDedupes 200 now with
    | (0, s) => some s
    | (_ + 1, s) => sweepDedupesLoop now calls s

/-- The migration is about the finished sets only. -/
theorem foldl_migrateMember (members : List (JobId × ℤ)) (s : Unsplit V) :
    (members.foldl migrateMember s).jobs = s.jobs ∧
    (members.foldl migrateMember s).registry = s.registry ∧
    (members.foldl migrateMember s).unsplit.card ≤ s.unsplit.card := by
  induction members generalizing s with
  | nil => exact ⟨rfl, rfl, le_rfl⟩
  | cons member members ih =>
    have hstep : (migrateMember s member).jobs = s.jobs ∧
        (migrateMember s member).registry = s.registry ∧
        (migrateMember s member).unsplit = s.unsplit.rem member.1 := by
      unfold migrateMember
      dsimp only
      split <;> exact ⟨rfl, rfl, rfl⟩
    obtain ⟨hjobs, hregistry, hcard⟩ := ih (migrateMember s member)
    refine ⟨hjobs.trans hstep.1, hregistry.trans hstep.2.1, hcard.trans ?_⟩
    rw [hstep.2.2]
    exact List.length_filter_le _ _

theorem card_migrated {s : Unsplit V} {limit : ℕ} (h : s.unsplit.withScores.take limit ≠ []) :
    ((s.unsplit.withScores.take limit).foldl migrateMember s).unsplit.card < s.unsplit.card := by
  cases hmembers : s.unsplit.withScores.take limit with
  | nil => exact absurd hmembers h
  | cons member members =>
    have hmem : member ∈ s.unsplit.withScores :=
      List.mem_of_mem_take (hmembers ▸ List.mem_cons_self)
    have hin : member.1 ∈ s.unsplit.members :=
      s.unsplit.map_fst_withScores ▸ List.mem_map_of_mem hmem
    have hrem : (migrateMember s member).unsplit = s.unsplit.rem member.1 := by
      unfold migrateMember
      dsimp only
      split <;> rfl
    refine (foldl_migrateMember members (migrateMember s member)).2.2.trans_lt ?_
    rw [hrem]
    exact ZSet.card_rem_lt hin

/-- What is still to be looked at. -/
def Unsplit.backlog (s : Unsplit V) : ℕ := s.unsplit.card + s.dedupeIndex.card

/-- A call: how many it removed, and the entries that are gone. -/
structure Called (now : ℤ) (s : Unsplit V) (removed : ℕ) (s' : Unsplit V) : Prop where
  jobs : s'.jobs = s.jobs
  registry : s'.registry = (drops s.toKeyspace (s.swept 200 now)).registry
  done : removed = 0 → s.swept 200 now = []
  shrinks : removed ≠ 0 → s'.backlog < s.backlog

theorem swept_congr {ks ks' : Keyspace V} (hjobs : ks'.jobs = ks.jobs)
    (hregistry : ks'.registry = ks.registry) (limit : ℕ) (now : ℤ) :
    ks'.swept limit now = ks.swept limit now := by
  obtain ⟨hdedupes, hindex⟩ := Prod.mk.inj hregistry
  have hdead : ks'.dead = ks.dead := by
    funext key
    rw [Keyspace.dead, hdedupes, hjobs, Keyspace.dead]
  rw [Keyspace.swept, hdead, Keyspace.ended, Keyspace.pendings, hindex]
  rfl

theorem drops_congr {ks ks' : Keyspace V} (hregistry : ks'.registry = ks.registry)
    (keys : List String) : (drops ks' keys).registry = (drops ks keys).registry := by
  induction keys generalizing ks ks' with
  | nil => exact hregistry
  | cons key keys ih =>
    obtain ⟨hdedupes, hindex⟩ := Prod.mk.inj hregistry
    apply ih
    rw [Keyspace.registry, dropDedupe, hdedupes, hindex]
    rfl

theorem mem_members_of_swept {ks : Keyspace V} {limit : ℕ} {now : ℤ} {key : String}
    (h : key ∈ ks.swept limit now) : key ∈ ks.dedupeIndex.members := by
  rw [Keyspace.swept, List.mem_append] at h
  rcases h with hended | hdead
  · obtain ⟨t, ht, _⟩ := ZSet.mem_range.mp (List.mem_of_mem_take hended)
    exact ZSet.mem_members.mpr ⟨t, ht⟩
  · obtain ⟨t, ht, _⟩ := ZSet.mem_range.mp (List.mem_of_mem_take (List.mem_filter.mp hdead).1)
    exact ZSet.mem_members.mpr ⟨t, ht⟩

theorem sweepDedupes_called {s : Unsplit V} (h : s.DedupesIndexed) (now : ℤ) :
    Called now s (s.sweepDedupes 200 now).1 (s.sweepDedupes 200 now).2 := by
  obtain ⟨hjobs, hregistry, hcard⟩ :=
    foldl_migrateMember (s.unsplit.withScores.take 200) s
  have hlt := @card_migrated V s 200
  rw [s.sweepDedupes_migrated]
  generalize (s.unsplit.withScores.take 200).foldl migrateMember s = migrated at *
  dsimp only
  rw [sweepDedupes_eq (h.of_registry hregistry), swept_congr hjobs hregistry]
  have hdrops := drops_congr hregistry (s.swept 200 now)
  have hindex : (drops migrated.toKeyspace (s.swept 200 now)).dedupeIndex =
      (drops s.toKeyspace (s.swept 200 now)).dedupeIndex := congrArg Prod.snd hdrops
  refine ⟨(drops_jobs _ _).trans hjobs, hdrops, fun hnone => ?_, fun hsome => ?_⟩
  · apply List.eq_nil_of_length_eq_zero
    dsimp only at hnone
    omega
  · have hle := card_drops_le s.toKeyspace (s.swept 200 now)
    have hlegacy : (s.unsplit.withScores.take 200).length ≠ 0 →
        migrated.unsplit.card < s.unsplit.card := fun hne =>
      hlt fun hnil => hne (congrArg List.length hnil)
    have hswept : (s.swept 200 now).length ≠ 0 →
        (drops s.toKeyspace (s.swept 200 now)).dedupeIndex.card < s.dedupeIndex.card := fun hne =>
      card_drops_lt (fun hnil => hne (congrArg List.length hnil)) fun _ hkey =>
        mem_members_of_swept hkey
    change migrated.unsplit.card +
      (drops migrated.toKeyspace (s.swept 200 now)).dedupeIndex.card < s.unsplit.card + s.dedupeIndex.card
    rw [hindex]
    dsimp only at hsome
    by_cases hmigrated : (s.unsplit.withScores.take 200).length = 0
    · have := hswept (by omega)
      omega
    · have := hlegacy hmigrated
      omega

theorem Called.indexed {now : ℤ} {s s' : Unsplit V} {removed : ℕ} (h : Called now s removed s')
    (hindexed : s.DedupesIndexed) : s'.DedupesIndexed :=
  (drops_indexed hindexed (s.swept 200 now)).of_registry h.registry

theorem Called.get? {now : ℤ} {s s' : Unsplit V} {removed : ℕ} (h : Called now s removed s')
    (key : String) :
    s'.dedupes.get? key = if key ∈ s.swept 200 now then none else s.dedupes.get? key := by
  have hdedupes : s'.dedupes = (drops s.toKeyspace (s.swept 200 now)).dedupes :=
    congrArg Prod.fst h.registry
  rw [hdedupes]
  exact drops_get? s.toKeyspace (s.swept 200 now) key

/-- The loop ends. -/
theorem sweepDedupesLoop_ends {s : Unsplit V} (h : s.DedupesIndexed) (now : ℤ) :
    ∃ calls s', sweepDedupesLoop now calls s = some s' := by
  induction hn : s.backlog using Nat.strong_induction_on generalizing s with
  | _ n ih =>
    have hcalled := sweepDedupes_called h now
    generalize hcall : s.sweepDedupes 200 now = result at hcalled
    obtain ⟨removed, t⟩ := result
    cases removed with
    | zero =>
      refine ⟨1, t, ?_⟩
      rw [sweepDedupesLoop, hcall]
    | succ removed =>
      have hshorter := hcalled.shrinks (Nat.succ_ne_zero removed)
      obtain ⟨calls, s', hloop⟩ := ih t.backlog (hn ▸ hshorter) (hcalled.indexed h) rfl
      refine ⟨calls + 1, s', ?_⟩
      rw [sweepDedupesLoop, hcall]
      exact hloop

/-! ## What is in reach -/

/-- The pointers at live jobs: no call removes them. -/
def Keyspace.holding (ks : Keyspace V) : List String := ks.pendings.filter fun key => !ks.dead key

/-- What the calls of a loop remove together: ended windows, and pointers at dead jobs with fewer than
200 pointers at live ones before them. -/
def Keyspace.inReach (ks : Keyspace V) (now : ℤ) : List String :=
  ks.ended now ++ ks.pendings.filter fun key =>
    ks.dead key && decide (rankIn (· < ·) ks.holding key < 200)

theorem mem_inReach {ks : Keyspace V} {now : ℤ} {key : String} :
    key ∈ ks.inReach now ↔
      key ∈ ks.ended now ∨
      key ∈ ks.pendings ∧ ks.dead key = true ∧ rankIn (· < ·) ks.holding key < 200 := by
  simp [Keyspace.inReach]

theorem pairwise_pendings (ks : Keyspace V) : ks.pendings.Pairwise (· < ·) :=
  ks.dedupeIndex.pairwise_range fun _ h => of_decide_eq_true h

theorem swept_subset (ks : Keyspace V) (now : ℤ) : ks.swept 200 now ⊆ ks.inReach now := by
  intro key hkey
  rw [Keyspace.swept, List.mem_append] at hkey
  rw [mem_inReach]
  rcases hkey with hended | hdead
  · exact .inl (List.mem_of_mem_take hended)
  · obtain ⟨htaken, hdead⟩ := List.mem_filter.mp hdead
    have hpending := List.mem_of_mem_take htaken
    have hrank :=
      (mem_take_iff (pairwise_pendings ks) (fun _ _ => lt_asymm) hpending 200).mp htaken
    have hle : rankIn (· < ·) ks.holding key ≤ rankIn (· < ·) ks.pendings key :=
      List.Sublist.countP_le List.filter_sublist
    exact .inr ⟨hpending, hdead, hle.trans_lt hrank⟩

/-- Where a call finds nothing to remove, nothing is in reach. -/
theorem inReach_eq_nil {ks : Keyspace V} {now : ℤ} (h : ks.swept 200 now = []) :
    ks.inReach now = [] := by
  obtain ⟨hended, hreached⟩ := List.append_eq_nil_iff.mp h
  have hended : ks.ended now = [] := by
    rcases List.take_eq_nil_iff.mp hended with hzero | hnil
    · cases hzero
    · exact hnil
  rw [List.eq_nil_iff_forall_not_mem]
  intro key hkey
  rcases mem_inReach.mp hkey with hmem | ⟨hpending, hdead, hrank⟩
  · rw [hended] at hmem
    cases hmem
  · -- the first pointer at a dead job, in the order of the index
    have hfound : (ks.pendings.find? ks.dead).isSome := List.find?_isSome.mpr ⟨key, hpending, hdead⟩
    obtain ⟨first, hfirst⟩ := Option.isSome_iff_exists.mp hfound
    obtain ⟨hfirstDead, before, behind, hsplit, hlive⟩ := List.find?_eq_some_iff_append.mp hfirst
    have hsorted := pairwise_pendings ks
    rw [hsplit] at hsorted hpending
    obtain ⟨hbefore, _, hlt⟩ := List.pairwise_append.mp hsorted
    have hkey : key ∈ first :: behind := by
      rcases List.mem_append.mp hpending with hin | hin
      · exact absurd hdead (by simpa using hlive key hin)
      · exact hin
    have hsubset : before ⊆ ks.holding := fun k hk =>
      List.mem_filter.mpr ⟨hsplit ▸ List.mem_append_left _ hk, hlive k hk⟩
    have hall : before.countP (fun k => decide (k < key)) = before.length :=
      List.countP_eq_length.mpr fun k hk => decide_eq_true (hlt k hk key hkey)
    have hlength : before.length ≤ rankIn (· < ·) ks.holding key := by
      rw [← hall]
      exact (List.subperm_of_subset (hbefore.imp ne_of_lt) hsubset).countP_le _
    have hfirstReached : first ∈ (ks.pendings.take 200).filter ks.dead := by
      refine List.mem_filter.mpr ⟨?_, hfirstDead⟩
      rw [hsplit, List.take_append, List.mem_append]
      right
      obtain ⟨m, hm⟩ : ∃ m, 200 - before.length = m + 1 := ⟨199 - before.length, by omega⟩
      rw [hm, List.take_succ_cons]
      exact List.mem_cons_self
    rw [hreached] at hfirstReached
    cases hfirstReached

theorem dead_of_swept {ks : Keyspace V} (h : ks.DedupesIndexed) {now : ℤ} {key : String}
    (hpending : key ∈ ks.pendings) (hswept : key ∈ ks.swept 200 now) : ks.dead key = true := by
  rcases List.mem_append.mp hswept with hended | hdead
  · exact absurd (List.mem_of_mem_take hended) (not_ended_of_pending h now hpending)
  · exact (List.mem_filter.mp hdead).2

/-- A call leaves in reach what was and is not gone: the pointers at live jobs all stay. -/
theorem Called.mem_inReach {now : ℤ} {s s' : Unsplit V} {removed : ℕ} (h : Called now s removed s')
    (hindexed : s.DedupesIndexed) (key : String) :
    key ∈ s'.inReach now ↔ key ∈ s.inReach now ∧ key ∉ s.swept 200 now := by
  have hrange : ∀ p, s'.dedupeIndex.range p =
      (s.dedupeIndex.range p).filter fun key => decide (key ∉ s.swept 200 now) := by
    intro p
    have hindex : s'.dedupeIndex = (drops s.toKeyspace (s.swept 200 now)).dedupeIndex :=
      congrArg Prod.snd h.registry
    rw [hindex]
    exact range_drops ..
  have hdead : ∀ k, k ∉ s.swept 200 now → s'.dead k = s.dead k := by
    intro k hk
    rw [Keyspace.dead, h.get?, if_neg hk, h.jobs, Keyspace.dead]
  have hholding : s'.holding = s.holding := by
    rw [Keyspace.holding, Keyspace.pendings, hrange, List.filter_filter, Keyspace.holding]
    apply List.filter_congr
    intro k hk
    by_cases hswept : k ∈ s.swept 200 now
    · rw [dead_of_swept hindexed hk hswept, decide_eq_false (not_not_intro hswept), Bool.and_false]
      rfl
    · rw [hdead k hswept, decide_eq_true hswept, Bool.and_true]
  rw [Redis.mem_inReach, Redis.mem_inReach, hholding]
  by_cases hswept : key ∈ s.swept 200 now
  · simp [Keyspace.ended, Keyspace.pendings, hrange, hswept]
  · simp [Keyspace.ended, Keyspace.pendings, hrange, hswept, hdead key hswept]

/-- What is left of the entries. -/
structure Swept (now : ℤ) (s s' : Unsplit V) : Prop where
  jobs : s'.jobs = s.jobs
  entries : ∀ key,
    s'.dedupes.get? key = if key ∈ s.inReach now then none else s.dedupes.get? key

/-- The loop removes what is in reach, in however many calls. -/
theorem sweepDedupesLoop_swept {now : ℤ} {s s' : Unsplit V} (hindexed : s.DedupesIndexed) {calls : ℕ}
    (hloop : sweepDedupesLoop now calls s = some s') : Swept now s s' := by
  induction calls generalizing s with
  | zero => cases hloop
  | succ calls ih =>
    have hcalled := sweepDedupes_called hindexed now
    rw [sweepDedupesLoop] at hloop
    generalize s.sweepDedupes 200 now = result at hcalled hloop
    obtain ⟨removed, t⟩ := result
    cases removed with
    | zero =>
      obtain rfl := Option.some.inj hloop
      have hnone := hcalled.done rfl
      refine ⟨hcalled.jobs, fun key => ?_⟩
      rw [hcalled.get?, hnone, inReach_eq_nil hnone]
    | succ removed =>
      have hrest := ih (hcalled.indexed hindexed) hloop
      refine ⟨hrest.jobs.trans hcalled.jobs, fun key => ?_⟩
      rw [hrest.entries, hcalled.get?]
      have hreach := hcalled.mem_inReach hindexed key
      by_cases hswept : key ∈ s.swept 200 now
      · simp [hswept, swept_subset s.toKeyspace now hswept]
      · simp [hreach, hswept]

/-! ## A clean sweep -/

/-- What the sweep is for: it ends, and the entries it leaves are those that still hold their key. -/
def SweepsClean (now : ℤ) (s : Unsplit V) : Prop :=
  ∃ calls s', sweepDedupesLoop now calls s = some s' ∧ s'.jobs = s.jobs ∧
    ∀ key, s'.dedupes.get? key = (s.dedupes.get? key).filter (s.alive now)

theorem sweepsClean_iff {s : Unsplit V} (hindexed : s.DedupesIndexed) (now : ℤ) :
    SweepsClean now s ↔ ∀ key entry, s.dedupes.get? key = some entry →
      (key ∈ s.inReach now ↔ s.alive now entry = false) := by
  have hclean : ∀ key entry,
      (if key ∈ s.inReach now then none else some entry) = (some entry).filter (s.alive now) ↔
        (key ∈ s.inReach now ↔ s.alive now entry = false) := by
    intro key entry
    rw [Option.filter_some]
    by_cases hreach : key ∈ s.inReach now <;> cases s.alive now entry <;> simp [hreach]
  constructor
  · rintro ⟨calls, s', hloop, _, hentries⟩ key entry hentry
    have hleft := (sweepDedupesLoop_swept hindexed hloop).entries key
    rw [hentries, hentry] at hleft
    exact (hclean key entry).mp hleft.symm
  · intro h
    obtain ⟨calls, s', hloop⟩ := sweepDedupesLoop_ends hindexed now
    have hswept := sweepDedupesLoop_swept hindexed hloop
    refine ⟨calls, s', hloop, hswept.jobs, fun key => ?_⟩
    rw [hswept.entries]
    cases hentry : s.dedupes.get? key with
    | none => exact ite_self none
    | some entry => exact (hclean key entry).mpr (h key entry hentry)

/-- A window that ends is in reach once it is over. -/
theorem inReach_of_window {ks : Keyspace V} (h : ks.DedupesIndexed) (now : ℤ) {key : String}
    {entry : DedupeHash} (hentry : ks.dedupes.get? key = some entry) (hends : entry.score ≠ ⊤) :
    key ∈ ks.inReach now ↔ ks.alive now entry = false := by
  have hpending : key ∉ ks.pendings := by
    intro hpending
    obtain ⟨entry', hentry', htop⟩ := (mem_pendings h).mp hpending
    obtain rfl := Option.some.inj (hentry.symm.trans hentry')
    exact hends htop
  have hended : key ∈ ks.ended now ↔ entry.score ≤ now := by
    rw [mem_ended h, hentry]
    simp
  rw [mem_inReach, hended]
  cases hexpires : entry.expiresAt with
  | none => exact absurd (congrArg (·.getD ⊤) hexpires) hends
  | some t => simp [hpending, Keyspace.alive, DedupeHash.score, hexpires]

def Keyspace.pendingMode (ks : Keyspace V) (key : String) : Bool :=
  (ks.dedupes.get? key).any fun entry => decide (entry.expiresAt = none)

/-- Of the entries at `+inf` whose job is gone or terminal, those in pending mode are the ones with
fewer than 200 entries at `+inf` of live jobs before them. -/
def Keyspace.PendingInReach (ks : Keyspace V) : Prop :=
  ∀ key ∈ ks.pendings, ks.dead key = true →
    (rankIn (· < ·) ks.holding key < 200 ↔ ks.pendingMode key = true)

theorem alive_of_pending {ks : Keyspace V} {now : ℤ} {key : String} {entry : DedupeHash}
    (hentry : ks.dedupes.get? key = some entry) (htop : entry.score = ⊤) :
    ks.alive now entry = false ↔ ks.dead key = true ∧ ks.pendingMode key = true := by
  rw [Keyspace.alive, Keyspace.dead, Keyspace.pendingMode, hentry, Option.bind_some, Option.any_some]
  cases hexpires : entry.expiresAt with
  | none => cases ks.jobs.get? entry.jobId <;> simp
  | some t =>
    rw [DedupeHash.score, hexpires, Option.getD_some] at htop
    simp [htop]

/-- For an entry at `+inf`, what the sweep does is right as the condition says. -/
theorem inReach_of_pending {ks : Keyspace V} (h : ks.DedupesIndexed) (now : ℤ) {key : String}
    {entry : DedupeHash} (hentry : ks.dedupes.get? key = some entry) (htop : entry.score = ⊤) :
    (key ∈ ks.inReach now ↔ ks.alive now entry = false) ↔
      (ks.dead key = true →
        (rankIn (· < ·) ks.holding key < 200 ↔ ks.pendingMode key = true)) := by
  have hpending : key ∈ ks.pendings := (mem_pendings h).mpr ⟨entry, hentry, htop⟩
  have hreach : key ∈ ks.inReach now ↔
      ks.dead key = true ∧ rankIn (· < ·) ks.holding key < 200 := by
    simp [mem_inReach, hpending, not_ended_of_pending h now hpending]
  rw [hreach, alive_of_pending hentry htop]
  exact and_congr_right_iff

/-- The sweep is clean exactly when it reaches every dead entry in pending mode and no window that does
not end. -/
theorem dedupe_sweep_clean_iff {s : Unsplit V} (hindexed : s.DedupesIndexed) (now : ℤ) :
    SweepsClean now s ↔ s.PendingInReach := by
  rw [sweepsClean_iff hindexed]
  constructor
  · intro h key hkey
    obtain ⟨entry, hentry, htop⟩ := (mem_pendings hindexed).mp hkey
    exact (inReach_of_pending hindexed now hentry htop).mp (h key entry hentry)
  · intro h key entry hentry
    by_cases htop : entry.score = ⊤
    · have hpending := (mem_pendings hindexed).mpr ⟨entry, hentry, htop⟩
      exact (inReach_of_pending hindexed now hentry htop).mpr (h key hpending)
    · exact inReach_of_window hindexed now hentry htop

/-! ## A dead entry behind 200 live ones -/

/-- Keys in increasing order. -/
def crowdKey (m : ℕ) : String := String.ofList (List.replicate (m + 1) 'k')

def crowdRequest (m : ℕ) : EnqueueRequest Unit :=
  { EnqueueRequest.plain (crowdKey m) "n" "q" () with
    dedupe := some { key := crowdKey m, ttlMs := none, extend := false, replace := false } }

def crowdStep (ks : Keyspace Unit) (m : ℕ) : Keyspace Unit :=
  ks.run ⟨false, false⟩ 0 (.enqueue .user (crowdKey m) (crowdRequest m))

/-- So many waiting jobs, each the holder of its own pending-mode key. -/
def crowd (n : ℕ) : Keyspace Unit := (List.range n).foldl crowdStep Keyspace.empty

/-- The last job of a crowd is removed; its entry stays. -/
def crowded (n : ℕ) : Unsplit Unit :=
  { (crowd (n + 1)).run ⟨false, false⟩ 0 (.remove (crowdKey n)) with unsplit := ∅ }

theorem crowdKey_strictMono : StrictMono fun m => dedupeStoreKey "n" (crowdKey m) := by
  apply strictMono_nat_of_lt_succ
  intro m
  have hstep : ∀ m : ℕ, List.replicate m 'k' < List.replicate (m + 1) 'k' := by
    intro m
    induction m with
    | zero => exact List.Lex.nil
    | succ m ih => exact List.Lex.cons ih
  rw [String.lt_iff_toList_lt]
  simp only [dedupeStoreKey, crowdKey, String.toList_append, String.toList_ofList]
  exact List.Lex.append_left _ (hstep (m + 1)) _

theorem crowdKey_injective : Function.Injective crowdKey := fun _ _ h =>
  crowdKey_strictMono.injective (congrArg (dedupeStoreKey "n") h)

theorem crowdKey_ne_empty (m : ℕ) : crowdKey m ≠ "" := by
  intro h
  have hlist := congrArg String.toList h
  rw [crowdKey, String.toList_ofList] at hlist
  cases hlist

/-- After so many of the requests. -/
structure Crowd (n : ℕ) (ks : Keyspace Unit) : Prop where
  indexed : ks.DedupesIndexed
  jobs : ∀ m, ks.jobs.get? (crowdKey m) =
    if m < n then some (jobHash (crowdKey m) (crowdRequest m) (crowdKey m) 0 (m + 1)) else none
  entries : ∀ m, ks.dedupes.get? (dedupeStoreKey "n" (crowdKey m)) =
    if m < n then some ⟨crowdKey m, none⟩ else none
  seq : ks.seq = n

theorem crowd_spec (n : ℕ) : Crowd n (crowd n) := by
  induction n with
  | zero => exact ⟨fun _ => rfl, fun _ => rfl, fun _ => rfl, rfl⟩
  | succ n ih =>
    have hstep : crowd (n + 1) = crowdStep (crowd n) n := by
      rw [crowd, List.range_succ, List.foldl_append]
      rfl
    have hfresh : (crowd n).jobs.has (crowdKey n) = false := by
      rw [JsMap.has, ih.jobs, if_neg (lt_irrefl n)]
      rfl
    have hdedupe : dedupeOf (crowdRequest n) =
        some { key := crowdKey n, ttlMs := none, extend := false, replace := false } := by
      rw [dedupeOf, crowdRequest, Option.filter_some, if_pos]
      exact decide_eq_true (crowdKey_ne_empty n)
    have hdecision : ∀ dedupe, dedupe.key = crowdKey n →
        dedupeDecision (crowd n) 0 (crowdRequest n) dedupe = none := by
      intro dedupe hkey
      have hentry := ih.entries n
      rw [if_neg (lt_irrefl n)] at hentry
      have hfree : (crowd n).dedupes.get?
          (dedupeStoreKey (crowdRequest n).name dedupe.key) = none := by
        rw [hkey]
        exact hentry
      unfold dedupeDecision
      simp only [hfree]
    have henqueue : crowdStep (crowd n) n = registerDedupe
        (insertJobRow ⟨false, false⟩ (crowd n) (crowdKey n) (crowdRequest n) (crowdKey n) 0) 0 "n"
        { key := crowdKey n, ttlMs := none, extend := false, replace := false } (crowdKey n) := by
      change (enqueue ⟨false, false⟩ (crowd n) .user (crowdKey n) (crowdRequest n) 0).2 = _
      unfold enqueue
      rw [if_neg (by simp [hfresh]), hdedupe, Option.bind_some, hdecision _ rfl]
      rfl
    have hinserted := registry_insertJobRow ⟨false, false⟩ (crowd n) (crowdKey n) (crowdRequest n)
      (crowdKey n) 0
    obtain ⟨hjobs, hseq⟩ := insertJobRow_jobs ⟨false, false⟩ (crowd n) (crowdKey n) (crowdRequest n)
      (crowdKey n) 0
    generalize insertJobRow ⟨false, false⟩ (crowd n) (crowdKey n) (crowdRequest n) (crowdKey n) 0 =
      inserted at *
    have hdedupes : inserted.dedupes = (crowd n).dedupes := congrArg Prod.fst hinserted
    refine ⟨?_, fun m => ?_, fun m => ?_, ?_⟩
    · rw [hstep]
      exact run_dedupesIndexed ⟨false, false⟩ 0 (.enqueue .user (crowdKey n) (crowdRequest n)) ih.indexed
    · rw [hstep, henqueue]
      change inserted.jobs.get? (crowdKey m) = _
      rw [hjobs, JsMap.get?_set, ih.seq, ih.jobs]
      by_cases hm : m = n
      · subst hm
        simp
      · rw [if_neg fun h => hm (crowdKey_injective h),
          if_congr (show m < n + 1 ↔ m < n by omega) rfl rfl]
    · rw [hstep, henqueue]
      simp only [registerDedupe, JsMap.get?_set, hdedupes, ih.entries]
      by_cases hm : m = n
      · subst hm
        simp
      · rw [if_neg fun h => hm (crowdKey_strictMono.injective h),
          if_congr (show m < n + 1 ↔ m < n by omega) rfl rfl]
    · rw [hstep, henqueue]
      exact hseq.trans (congrArg (· + 1) ih.seq)

theorem crowded_indexed (n : ℕ) : (crowded n).DedupesIndexed :=
  run_dedupesIndexed ⟨false, false⟩ 0 (.remove (crowdKey n)) (crowd_spec (n + 1)).indexed

/-- The entry of the removed job comes after those of all the others. -/
theorem crowded_last {n : ℕ} (hn : 200 ≤ n) :
    (crowded n).dedupes.get? (dedupeStoreKey "n" (crowdKey n)) = some ⟨crowdKey n, none⟩ ∧
    (crowded n).dead (dedupeStoreKey "n" (crowdKey n)) = true ∧
    200 ≤ rankIn (· < ·) (crowded n).holding (dedupeStoreKey "n" (crowdKey n)) := by
  have hcrowd := crowd_spec (n + 1)
  have hjob := hcrowd.jobs n
  rw [if_pos (Nat.lt_succ_self n)] at hjob
  have hremove : (crowded n).toKeyspace = deleteJob (crowd (n + 1)) (crowdKey n) := by
    change (remove (crowd (n + 1)) (crowdKey n)).2 = _
    rw [remove, hjob]
    rfl
  have hentries : ∀ m, m < n + 1 →
      (crowded n).dedupes.get? (dedupeStoreKey "n" (crowdKey m)) = some ⟨crowdKey m, none⟩ := by
    intro m hm
    have hregistry := congrArg Prod.fst (registry_deleteJob (crowd (n + 1)) (crowdKey n))
    have hsame : (crowded n).dedupes = (crowd (n + 1)).dedupes :=
      (congrArg Keyspace.dedupes hremove).trans hregistry
    rw [hsame, hcrowd.entries, if_pos hm]
  have hpending : ∀ m, m < n + 1 → dedupeStoreKey "n" (crowdKey m) ∈ (crowded n).pendings :=
    fun m hm => (mem_pendings (crowded_indexed n)).mpr ⟨_, hentries m hm, rfl⟩
  have hjobs : ∀ m, m < n + 1 → (crowded n).dead (dedupeStoreKey "n" (crowdKey m)) = decide (m = n) := by
    intro m hm
    rw [Keyspace.dead, hentries m hm, Option.bind_some, hremove, deleteJob_jobs, hcrowd.jobs,
      if_pos hm]
    by_cases hlast : m = n
    · subst hlast
      simp
    · rw [if_neg fun h => hlast (crowdKey_injective h)]
      simp [hlast, jobHash, crowdRequest, EnqueueRequest.plain, JobState.isTerminal]
  refine ⟨hentries n (Nat.lt_succ_self n), ?_, ?_⟩
  · rw [hjobs n (Nat.lt_succ_self n), decide_eq_true rfl]
  · -- the keys in front are distinct, live and smaller
    let front := (List.range n).map fun m => dedupeStoreKey "n" (crowdKey m)
    have hnodup : front.Nodup := List.nodup_range.map crowdKey_strictMono.injective
    have hsubset : front ⊆ (crowded n).holding := by
      intro key hkey
      obtain ⟨m, hm, rfl⟩ := List.mem_map.mp hkey
      have hlt := List.mem_range.mp hm
      refine List.mem_filter.mpr ⟨hpending m (by omega), ?_⟩
      rw [hjobs m (by omega), decide_eq_false (by omega)]
      rfl
    have hall : front.countP (fun key => decide (key < dedupeStoreKey "n" (crowdKey n))) = n := by
      rw [List.countP_eq_length.mpr, List.length_map, List.length_range]
      intro key hkey
      obtain ⟨m, hm, rfl⟩ := List.mem_map.mp hkey
      exact decide_eq_true (crowdKey_strictMono (List.mem_range.mp hm))
    calc 200 ≤ n := hn
      _ = front.countP (fun key => decide (key < dedupeStoreKey "n" (crowdKey n))) := hall.symm
      _ ≤ _ := (List.subperm_of_subset hnodup hsubset).countP_le _

/-- 201 jobs with a key each, the last one removed: its entry is never swept. -/
theorem crowded_not_clean : ¬SweepsClean 0 (crowded 200) := by
  rw [sweepsClean_iff (crowded_indexed 200)]
  intro hclean
  obtain ⟨hentry, hdead, hbehind⟩ := crowded_last le_rfl
  have hreach := (inReach_of_pending (crowded_indexed 200) 0 hentry rfl).mp (hclean _ _ hentry) hdead
  have hmode : (crowded 200).pendingMode (dedupeStoreKey "n" (crowdKey 200)) = true := by
    rw [Keyspace.pendingMode, hentry]
    rfl
  exact absurd (hreach.mpr hmode) (not_lt.mpr hbehind)

/-! ## A window that does not end -/

/-- `ttl: Duration.infinity`. -/
def onceRequest : EnqueueRequest Unit :=
  { EnqueueRequest.plain "a" "n" "q" () with
    dedupe := some { key := "once", ttlMs := some ⊤, extend := false, replace := false } }

/-- Beside two jobs in pending mode and the entry of a third one that is gone. -/
def crowdedOnce : Unsplit Unit :=
  { (crowded 2).run ⟨false, false⟩ 0 (.enqueue .user "a" onceRequest) with unsplit := ∅ }

theorem crowdedOnce_indexed : crowdedOnce.DedupesIndexed := by
  have henqueued :=
    run_dedupesIndexed ⟨false, false⟩ 0 (.enqueue .user "a" onceRequest) (crowded_indexed 2)
  exact henqueued

theorem dedupe_sweep_clean_iff_crowded :
    (crowdedOnce.pendings.length, crowdedOnce.holding.length) = (4, 3) ∧
      SweepsClean 0 crowdedOnce :=
  ⟨by decide,
    (dedupe_sweep_clean_iff crowdedOnce_indexed 0).mpr (by unfold Keyspace.PendingInReach; decide)⟩

/-- Its job is cancelled. -/
def onceCancelled : Unsplit Unit :=
  { (Keyspace.empty.run ⟨false, false⟩ 0 (.enqueue .user "a" onceRequest)).run ⟨false, false⟩ 0
      (.cancel "a") with unsplit := ∅ }

theorem onceCancelled_indexed : onceCancelled.DedupesIndexed := by
  have hempty : (Keyspace.empty : Keyspace Unit).DedupesIndexed := fun _ => rfl
  have henqueued := run_dedupesIndexed ⟨false, false⟩ 0 (.enqueue .user "a" onceRequest) hempty
  have hcancelled := run_dedupesIndexed ⟨false, false⟩ 0 (.cancel "a") henqueued
  exact hcancelled

/-- The sweep takes the entry away, and the key is free again. -/
theorem onceCancelled_not_clean : ¬SweepsClean 0 onceCancelled := by
  rw [sweepsClean_iff onceCancelled_indexed]
  intro hclean
  have hreach : dedupeStoreKey "n" "once" ∈ onceCancelled.inReach 0 := by decide
  cases (hclean _ ⟨"a", some ⊤⟩ rfl).mp hreach

end EffectMq.Redis
