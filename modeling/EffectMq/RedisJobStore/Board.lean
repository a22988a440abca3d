import EffectMq.Board
import EffectMq.RedisJobStore.Claims

/-! # The Redis driver on the board

A hash, its list of attempts and the empty texts for what is absent, read as the job they stand for.
An elementary step of the driver puts one job on the board, and what follows a terminal transition
posts its report, frees its key and trims.
-/

namespace EffectMq.Redis
set_option autoImplicit false
set_option maxHeartbeats 250000

open Indexes Transition

variable {V : Type} {indexes : IndexConfig}

/-! ## The keyspace as a board -/

/-- The job that a hash and its ledger stand for. A lock has a token as long as it has an end. -/
def JobHash.stored (job : JobHash V) (attempts : List (AttemptRecord V)) : Memory.MemJob V :=
  { job with
    dedupeKey := optionalString job.dedupeKey
    failedReason := optionalString job.failedReason
    lockToken := job.lockExpiresAt.map fun _ => job.lockToken
    attempts }

def DedupeHash.stored (entry : DedupeHash) : Memory.DedupeEntry := ⟨entry.jobId, entry.expiresAt⟩

def Keyspace.board (ks : Keyspace V) : Board V where
  jobs id := (ks.jobs.get? id).map fun job => job.stored (ks.attempts id)
  owed := owesCascades ks
  dedupes key := (ks.dedupes.get? key).map DedupeHash.stored
  paused := ks.paused
  outbox := ks.outbox
  outboxSeq := ks.outboxSeq
  seq := ks.seq

/-! ## Writes -/

section Writes

variable {ks ks' : Keyspace V} {id : JobId} {job : JobHash V}

theorem board_of_beside {jobs : JobId → Option (Memory.MemJob V)} (h : ks'.beside = ks.beside)
    (hjobs : ∀ id, ks'.board.jobs id = jobs id) :
    ks'.board = { ks.board with jobs, seq := ks'.seq } := by
  simp only [Keyspace.beside, Prod.mk.injEq] at h
  obtain ⟨hrows, hindex, hdedupes, hpaused, houtbox, houtboxSeq⟩ := h
  have howed : owesCascades ks' = owesCascades ks := by
    funext id
    rw [owesCascades, owesCascades, hrows, hindex]
  obtain rfl : ks'.board.jobs = jobs := funext hjobs
  simp only [Keyspace.board, howed, hdedupes, hpaused, houtbox, houtboxSeq]

/-- An elementary step puts the changed job. -/
theorem Moves.board {c : Change V} (hm : Moves indexes ks ks' id job c) (hid : job.id = id)
    (hbeside : ks'.beside = ks.beside) :
    ks'.board =
      { ks.board with seq := ks'.seq }.put ((c.apply job).stored (c.ledger job (ks.attempts id))) := by
  have hkeyed : ((c.apply job).stored (c.ledger job (ks.attempts id))).id = id :=
    (c.keeps job).1.trans hid
  refine board_of_beside hbeside fun id' => ?_
  simp only [Keyspace.board, hm.jobs, hm.attempts, upd_apply, Function.update_apply, hkeyed]
  split <;> rfl

@[simp] theorem stored_dedupeKey (job : JobHash V) (attempts : List (AttemptRecord V)) :
    (job.stored attempts).dedupeKey = optionalString job.dedupeKey := rfl

theorem board_appendOutbox (hjob : ks.jobs.get? id = some job) (outcome : TerminalState)
    (attempts : List (AttemptRecord V)) :
    (appendOutbox ks id outcome).board = ks.board.post (job.stored attempts) outcome := by
  have hparent : (job.stored attempts).parent = job.parent := rfl
  rw [appendOutbox, hjob, Board.post, hparent]
  dsimp only
  cases job.parent <;> rfl

theorem board_releaseDedupe (hid : job.id = id) (now : ℤ) (attempts : List (AttemptRecord V)) :
    (releaseDedupe ks job.name job.dedupeKey id now).board = ks.board.free (job.stored attempts) now := by
  subst hid
  rw [releaseDedupe, Board.free, stored_dedupeKey, optionalString]
  by_cases hempty : job.dedupeKey = ""
  · rw [if_pos hempty, if_pos hempty]
  · rw [if_neg hempty, if_neg hempty]
    dsimp only
    have hkey : Memory.dedupeMapKey (job.stored attempts).name job.dedupeKey =
        dedupeStoreKey job.name job.dedupeKey := rfl
    rw [hkey]
    generalize dedupeStoreKey job.name job.dedupeKey = key
    cases hentry : ks.dedupes.get? key with
    | none => simp only [Keyspace.board, hentry, Option.map_none]
    | some entry =>
      have hget : ks.board.dedupes key = some entry.stored := by
        simp only [Keyspace.board, hentry, Option.map_some]
      have hdelete : (fun k => ((ks.dedupes.delete key).get? k).map DedupeHash.stored) =
          Function.update ks.board.dedupes key none := by
        funext k
        rw [Function.update_apply, JsMap.get?_delete]
        split <;> rfl
      rw [hget]
      dsimp only
      by_cases hmine : entry.jobId = job.id ∧ entry.spent now = true
      · rw [if_pos hmine, if_pos (by exact hmine), ← hdelete]
        rfl
      · rw [if_neg hmine, if_neg (by exact hmine)]

theorem board_setWindow (ks : Keyspace V) (key : String) (now : ℤ) (ttlMs : Option (WithTop ℤ)) :
    (setWindow ks key now ttlMs).board = ks.board.window key now ttlMs := by
  cases ttlMs with
  | none => rfl
  | some ttl =>
    have hget : (fun k => ((ks.dedupes.modify key fun entry =>
        { entry with expiresAt := some (now + ttl) }).get? k).map DedupeHash.stored) =
          Function.update ks.board.dedupes key
            ((ks.board.dedupes key).map fun entry => { entry with expiresAt := some (now + ttl) }) := by
      funext k
      rw [Function.update_apply, JsMap.get?_modify]
      split
      next hk =>
        subst hk
        simp only [Keyspace.board, Option.map_map]
        rfl
      next => rfl
    simp only [Board.window, ← hget]
    rfl

theorem board_registerDedupe (ks : Keyspace V) (now : ℤ) (name : String) (dedupe : DedupePolicy)
    (id : JobId) : (registerDedupe ks now name dedupe id).board =
      ks.board.register (dedupeStoreKey name dedupe.key) ⟨id, dedupe.ttlMs.map fun ttl => now + ttl⟩ := by
  have hget : (fun k => ((ks.dedupes.set (dedupeStoreKey name dedupe.key)
      { jobId := id, expiresAt := dedupe.ttlMs.map fun ttl => now + ttl }).get? k).map DedupeHash.stored) =
        Function.update ks.board.dedupes (dedupeStoreKey name dedupe.key)
          (some ⟨id, dedupe.ttlMs.map fun ttl => now + ttl⟩) := by
    funext k
    rw [Function.update_apply, JsMap.get?_set]
    split <;> rfl
  rw [Board.register, ← hget]
  rfl

/-- A fresh row has no ledger yet. -/
theorem board_insertJobRow (hledger : ks.attempts id = []) (request : EnqueueRequest V)
    (dedupeKey : String) (now : ℤ) : (insertJobRow indexes ks id request dedupeKey now).board =
      { ks.board with seq := ks.seq + 1 }.put
        ((jobHash id request dedupeKey now (ks.seq + 1)).stored []) := by
  have hrest : (insertJobRow indexes ks id request dedupeKey now).beside = ks.beside ∧
      (insertJobRow indexes ks id request dedupeKey now).seq = ks.seq + 1 ∧
      (insertJobRow indexes ks id request dedupeKey now).attempts = ks.attempts ∧
      (insertJobRow indexes ks id request dedupeKey now).jobs =
        ks.jobs.set id (jobHash id request dedupeKey now (ks.seq + 1)) := by
    unfold insertJobRow
    dsimp only
    split <;> exact ⟨rfl, rfl, rfl, rfl⟩
  obtain ⟨hbeside, hseq, hattempts, hjobs⟩ := hrest
  refine (board_of_beside hbeside fun id' => ?_).trans (by rw [hseq]; rfl)
  have hkeyed : ((jobHash id request dedupeKey now (ks.seq + 1)).stored []).id = id := rfl
  simp only [Keyspace.board, hjobs, hattempts, JsMap.get?_set, Function.update_apply, hkeyed]
  split
  next hid => rw [hid, Option.map_some, hledger]
  next => rfl

theorem owesCascades_deleteJob (hjob : ks.jobs.get? id = some job) :
    owesCascades (deleteJob ks id) = Function.update (owesCascades ks) id false := by
  obtain ⟨rows, _, _, hdelete, hrows⟩ := deleteJob_eq hjob
  funext id'
  rw [hdelete, Function.update_apply]
  split
  next hid =>
    subst hid
    simp only [owesCascades, upd_apply, if_true]
    rfl
  next hid =>
    simp only [owesCascades, upd_apply, if_neg hid]
    simp [hrows _ _ hid]

theorem board_deleteJob (hjob : ks.jobs.get? id = some job) :
    (deleteJob ks id).board = ks.board.drop id := by
  have hjobs := deleteJob_jobs ks id
  have howed := owesCascades_deleteJob hjob
  obtain ⟨rows, _, _, hdelete, -⟩ := deleteJob_eq hjob
  have hget : (fun id' => ((deleteJob ks id).jobs.get? id').map fun job =>
      job.stored ((deleteJob ks id).attempts id')) = Function.update ks.board.jobs id none := by
    funext id'
    rw [hjobs, hdelete, Function.update_apply]
    split
    next hid => rfl
    next hid =>
      simp only [upd_apply, if_neg hid]
      rfl
  unfold Keyspace.board Board.drop at *
  rw [hget, howed]
  simp only [hdelete]
  rfl

end Writes

/-! ## Retention -/

section Retention

variable {ks : Keyspace V} {name : String} {state : TerminalState} {g : Group}

theorem beside_deleteUnowed (ks : Keyspace V) (ids : List JobId) :
    (deleteUnowed ks ids).paused = ks.paused ∧ (deleteUnowed ks ids).outbox = ks.outbox ∧
      (deleteUnowed ks ids).outboxSeq = ks.outboxSeq ∧ (deleteUnowed ks ids).seq = ks.seq ∧
      (deleteUnowed ks ids).dedupes = ks.dedupes := by
  induction ids generalizing ks with
  | nil => exact ⟨rfl, rfl, rfl, rfl, rfl⟩
  | cons id ids ih =>
    rw [deleteUnowed_cons]
    split
    · exact ih ks
    · cases hjob : ks.jobs.get? id with
      | none =>
        rw [deleteJob_of_none hjob]
        exact ih ks
      | some job =>
        obtain ⟨_, _, _, hdelete, -⟩ := deleteJob_eq hjob
        have hrest := ih (deleteJob ks id)
        rw [hdelete] at hrest ⊢
        exact hrest

/-- A job that is still there kept its ledger. -/
theorem deleteUnowed_attempts (ks : Keyspace V) (ids : List JobId) {id : JobId}
    (h : ((deleteUnowed ks ids).jobs.get? id).isSome) :
    (deleteUnowed ks ids).attempts id = ks.attempts id := by
  induction ids generalizing ks with
  | nil => rfl
  | cons id' ids ih =>
    rw [deleteUnowed_cons] at h ⊢
    split at h
    next howed =>
      rw [if_pos howed]
      exact ih ks h
    next howed =>
      rw [if_neg howed, ih _ h]
      cases hjob : ks.jobs.get? id' with
      | none => rw [deleteJob_of_none hjob]
      | some job =>
        obtain ⟨_, _, _, hdelete, -⟩ := deleteJob_eq hjob
        have hne : id ≠ id' := by
          rintro rfl
          rw [deleteUnowed_jobs, deleteJob_jobs, if_pos rfl] at h
          split at h <;> cases h
        rw [hdelete]
        exact if_neg hne

/-- Some jobs went, with their ledgers, and nothing else. -/
structure Spares (ks ks' : Keyspace V) : Prop where
  rest : ks'.board = { ks.board with jobs := ks'.board.jobs }
  ledger : ∀ id, (ks'.jobs.get? id).isSome →
    (ks.jobs.get? id).isSome ∧ ks'.attempts id = ks.attempts id

theorem Spares.refl (ks : Keyspace V) : Spares ks ks := ⟨rfl, fun _ h => ⟨h, rfl⟩⟩

theorem Spares.trans {ks₁ ks₂ : Keyspace V} (h : Spares ks ks₁) (h' : Spares ks₁ ks₂) :
    Spares ks ks₂ := by
  refine ⟨?_, fun id hid => ?_⟩
  · rw [h'.rest, h.rest]
  · obtain ⟨hmid, hattempts'⟩ := h'.ledger id hid
    obtain ⟨hfirst, hattempts⟩ := h.ledger id hmid
    exact ⟨hfirst, hattempts'.trans hattempts⟩

theorem spares_deleteUnowed (ks : Keyspace V) (ids : List JobId) : Spares ks (deleteUnowed ks ids) := by
  obtain ⟨hpaused, houtbox, houtboxSeq, hseq, hdedupes⟩ := beside_deleteUnowed ks ids
  have howed : owesCascades (deleteUnowed ks ids) = owesCascades ks :=
    funext (deleteUnowed_owesCascades ks ids)
  refine ⟨by simp only [Keyspace.board, hpaused, houtbox, houtboxSeq, hseq, hdedupes, howed], ?_⟩
  intro id hid
  refine ⟨?_, deleteUnowed_attempts ks ids hid⟩
  rw [deleteUnowed_jobs] at hid
  split at hid
  · cases hid
  · exact hid

theorem applyKeep_spares {ks' : Keyspace V} {keep : Option KeepPolicy} {now : ℤ}
    (h : applyKeep ks name state keep now = .ok ks') : Spares ks ks' := by
  unfold applyKeep at h
  split at h
  · obtain rfl := Except.ok.inj h
    exact .refl ks
  · rename_i policy _
    have hcount : ∀ ks₁ : Keyspace V, Spares ks₁ (applyCount ks₁ name state.toJobState policy) := by
      intro ks₁
      unfold applyCount
      split
      · exact .refl ks₁
      · exact spares_deleteUnowed ks₁ _
    cases hage : applyAge ks name state.toJobState policy now with
    | error ks₁ =>
      rw [hage] at h
      cases h
    | ok ks₁ =>
      rw [hage] at h
      obtain rfl := Except.ok.inj h
      refine Spares.trans ?_ (hcount ks₁)
      unfold applyAge at hage
      split at hage
      · obtain rfl := Except.ok.inj hage
        exact .refl ks
      · split at hage
        · cases hage
        · obtain rfl := Except.ok.inj hage
          exact spares_deleteUnowed ks _

theorem Spares.prunes {ks' : Keyspace V} {doomed : JobId → Prop} (h : Spares ks ks')
    (hjobs : Pruned ks.jobs.get? ks'.jobs.get? doomed) : Pruned ks.board.jobs ks'.board.jobs doomed := by
  intro id
  have hledger := h.ledger id
  constructor
  · intro hd
    simp only [Keyspace.board, (hjobs id).1 hd, Option.map_none]
  · intro hd
    simp only [Keyspace.board, (hjobs id).2 hd] at hledger ⊢
    cases hjob : ks.jobs.get? id with
    | none => rfl
    | some job =>
      rw [hjob] at hledger
      rw [Option.map_some, Option.map_some, (hledger rfl).2]

/-- The counts and ages of a policy are read as they were written. -/
def Readable (keep : Option KeepPolicy) : Prop :=
  ∀ state policy, keep.bind (·.governing state) = some policy → readable policy

theorem applyKeep_board {keep : Option KeepPolicy} (h : HoldsGroup ks name state g)
    (hreadable : Readable keep) (now : ℤ) :
    ∃ ks', applyKeep ks name state keep now = .ok ks' ∧
      ks.board.Trims ks'.board (g.Doomed (keep.bind (·.governing state)) now) := by
  cases keep with
  | none => exact ⟨ks, rfl, .refl_of (g.not_doomed_of_none now), rfl⟩
  | some keep =>
    obtain ⟨ks', hok, hpruned⟩ : ∃ ks', applyKeep ks name state (some keep) now = .ok ks' ∧ _ :=
      applyKeep_prunes h (hreadable state)
    have hspares := applyKeep_spares hok
    exact ⟨ks', hok, hspares.prunes hpruned, hspares.rest⟩

/-- The terminal jobs of one name and state, as the indexes list them. -/
theorem Consistent.holdsGroup (h : Consistent indexes ks) (hnumbered : ks.Numbered) (name : String)
    (state : TerminalState) : ∃ g, HoldsGroup ks name state g := by
  have hkeyed : ∀ id job, ks.jobs.get? id = some job → job.id = id := fun id job hjob =>
    (h.sound id job hjob).keyed
  have hids : (((terminalJobs ks name state).map (peerOf ks)).map (·.id)).Nodup := by
    rw [List.map_map]
    exact (JsMap.nodup_values_map hkeyed).sublist (List.filter_sublist.map _)
  have hseqs : (((terminalJobs ks name state).map (peerOf ks)).map (·.seq)).Nodup := by
    rw [List.map_map]
    refine List.Nodup.map_on ?_ (List.Nodup.of_map _ (by rwa [List.map_map] at hids))
    intro job hjob job' hjob' hseq
    obtain ⟨id, hget⟩ := JsMap.mem_values.mp (List.mem_filter.mp hjob).1
    obtain ⟨id', hget'⟩ := JsMap.mem_values.mp (List.mem_filter.mp hjob').1
    obtain rfl := hnumbered id id' job job' hget hget' hseq
    exact Option.some.inj (hget.symm.trans hget')
  refine ⟨⟨_, hids, hseqs⟩, hkeyed, fun job hjob => ?_, .refl _, fun id t => ?_⟩
  · obtain ⟨hmem, hin⟩ := List.mem_filter.mp hjob
    obtain ⟨id, hget⟩ := JsMap.mem_values.mp hmem
    refine (h.sound id job hget).stamped.finished ?_
    rw [(of_decide_eq_true hin).2]
    exact isTerminal_toJobState state
  · constructor
    · intro ht
      obtain ⟨id', job, hjob, hlisted⟩ :=
        h.member (show (ks.index (.terminal name state.toJobState)).score? id = some t from ht)
      simp only [JobHash.listed] at hlisted
      split at hlisted
      next hcond =>
        obtain ⟨t', ht', hpair⟩ := Option.map_eq_some_iff.mp hlisted
        obtain ⟨rfl, rfl⟩ := Prod.mk.inj hpair
        exact ⟨job, hjob, hcond.1.symm, hcond.2.1.symm, ht'⟩
      next => cases hlisted
    · rintro ⟨job, hjob, rfl, hstate, ht⟩
      refine h.score? hjob (.terminal job.name state.toJobState) ?_
      rw [JobHash.listed, if_pos ⟨rfl, hstate.symm, hstate ▸ isTerminal_toJobState state⟩, ht]
      rfl

/-- What follows the ledger entry of a terminal transition, on the board. -/
theorem wrapUp_board {id : JobId} {job : JobHash V} (h : Consistent indexes ks)
    (hnumbered : ks.Numbered) (hjob : ks.jobs.get? id = some job) (hreadable : Readable job.keep)
    (state : TerminalState) (now : ℤ) :
    ∃ g ks₁ ks', HoldsGroup ks₁ job.name state g ∧
      ks₁.board = (ks.board.post (job.stored (ks.attempts id)) state).free
        (job.stored (ks.attempts id)) now ∧
      wrapUp ks id job.name state now = .ok ks' ∧
      ks₁.board.Trims ks'.board (g.Doomed (job.keep.bind (·.governing state)) now) := by
  have hposted : (appendOutbox ks id state).jobs = ks.jobs :=
    congrArg (·.1) (body_appendOutbox ks id state)
  have hbody : (releaseDedupe (appendOutbox ks id state) job.name job.dedupeKey id now).body = ks.body := by
    rw [body_releaseDedupe, body_appendOutbox]
  have hboard : (releaseDedupe (appendOutbox ks id state) job.name job.dedupeKey id now).board =
      (ks.board.post (job.stored (ks.attempts id)) state).free (job.stored (ks.attempts id)) now := by
    rw [board_releaseDedupe (h.sound id job hjob).keyed now (ks.attempts id),
      board_appendOutbox hjob state (ks.attempts id)]
  have hwrap : wrapUp ks id job.name state now = applyKeep
      (releaseDedupe (appendOutbox ks id state) job.name job.dedupeKey id now) job.name state job.keep now := by
    rw [wrapUp]
    simp only [hposted, hjob]
    rfl
  generalize releaseDedupe (appendOutbox ks id state) job.name job.dedupeKey id now = ks₁ at *
  have hdoes : Does indexes (fun _ => True) ks ks₁ := .of_body trivial hbody
  have hjobs : ks₁.jobs = ks.jobs := congrArg (·.1) hbody
  obtain ⟨g, hholds⟩ := (hdoes.consistent h).holdsGroup
    (by rw [Keyspace.Numbered, hjobs]; exact hnumbered) job.name state
  obtain ⟨ks', hok, htrims⟩ := applyKeep_board hholds hreadable now
  exact ⟨g, ks₁, ks', hholds, hboard, hwrap.trans hok, htrims⟩

end Retention

end EffectMq.Redis
