import EffectMq.MemoryJobStore.Board
import EffectMq.MemoryJobStore.Order
import EffectMq.RedisJobStore.Board
import EffectMq.SweepAgreement

/-! # The Redis driver follows the in-memory driver

The verbs of a job's life, from its insertion to its removal, on two stores that hold the same board:
each verb answers alike on both and leaves the same board. The history sweep finds the same jobs due.
-/

namespace EffectMq
set_option autoImplicit false
set_option maxHeartbeats 250000

variable {V : Type} {indexes : Redis.IndexConfig}

/-- Two stores in good order that hold the same board. -/
structure Agrees (indexes : Redis.IndexConfig) (ks : Redis.Keyspace V) (s : Memory.Store V) : Prop where
  board : ks.board = s.board
  sound : Redis.Sound indexes ks
  wellFormed : Redis.AllHashes Redis.JobHash.WellFormed ks
  numbered : ks.Numbered
  keyed : s.toCore.Keyed
  seqInv : Memory.SeqInv s

theorem jobs_of_board {ks : Redis.Keyspace V} {s : Memory.Store V} (h : ks.board = s.board)
    (id : JobId) : s.jobs.get? id = (ks.jobs.get? id).map fun job => job.stored (ks.attempts id) :=
  (congrFun (congrArg Board.jobs h) id).symm

/-! ## Terminal transitions -/

/-- The same terminal jobs make the same group. -/
theorem holdsGroup_of_board {ks : Redis.Keyspace V} {s : Memory.Store V} {name : String}
    {state : TerminalState} {g : Group} (h : Redis.HoldsGroup ks name state g)
    (hboard : ks.board = s.board) : Memory.HoldsGroup s.toCore name state g := by
  have hjobs := jobs_of_board hboard
  have howed : s.toCore.owesCascades = Redis.owesCascades ks := (congrArg Board.owed hboard).symm
  have hkeyed : s.toCore.Keyed := by
    intro id job hjob
    obtain ⟨hash, hhash, rfl⟩ := Option.map_eq_some_iff.mp ((hjobs id).symm.trans hjob)
    exact h.keyed id hash hhash
  have hmem : ∀ job, job ∈ s.toCore.terminalJobs name state ↔
      ∃ hash ∈ Redis.terminalJobs ks name state, hash.stored (ks.attempts hash.id) = job := by
    intro job
    rw [Memory.Core.terminalJobs, List.mem_filter, JsMap.mem_values, decide_eq_true_eq]
    constructor
    · rintro ⟨⟨id, hjob⟩, hin⟩
      obtain ⟨hash, hhash, rfl⟩ := Option.map_eq_some_iff.mp ((hjobs id).symm.trans hjob)
      obtain rfl := h.keyed id hash hhash
      exact ⟨hash, h.mem_terminalJobs.mpr ⟨hhash, hin⟩, rfl⟩
    · rintro ⟨hash, hhash, rfl⟩
      obtain ⟨hget, hin⟩ := h.mem_terminalJobs.mp hhash
      refine ⟨⟨hash.id, ?_⟩, hin⟩
      rw [hjobs, hget, Option.map_some]
  have hpeer : ∀ hash : Redis.JobHash V,
      s.toCore.peerOf (hash.stored (ks.attempts hash.id)) = Redis.peerOf ks hash := by
    intro hash
    rw [Memory.Core.peerOf, howed]
    rfl
  refine ⟨hkeyed, fun job hjob => ?_, Group.listed_of_mem ?_ fun p => ?_⟩
  · obtain ⟨hash, hhash, rfl⟩ := (hmem job).mp hjob
    exact h.finished hash hhash
  · exact (JsMap.nodup_values_map hkeyed).sublist (List.filter_sublist.map _)
  · constructor
    · rintro ⟨job, hjob, rfl⟩
      obtain ⟨hash, hhash, rfl⟩ := (hmem job).mp hjob
      rw [hpeer]
      exact Group.mem_of_listed h.peers hhash
    · intro hp
      obtain ⟨hash, hhash, rfl⟩ := Group.exists_of_listed h.peers hp
      exact ⟨_, (hmem _).mpr ⟨hash, hhash, rfl⟩, hpeer hash⟩

/-- An outcome as the service takes it. -/
def Redis.Settled.toOutcome : Redis.Settled V → AckOutcome V
  | .complete exit => .complete exit
  | .retry delayMs exit => .retry delayMs exit
  | .fail exit => .fail exit
  | .cancelled => .cancelled

/-- Two calls that are answered alike and leave the same board. -/
def Alike {α : Type} (r : α × Redis.Keyspace V) (r' : α × Memory.Store V) : Prop :=
  r.1 = r'.1 ∧ r.2.board = r'.2.board

/-- No key is empty, so the script reads the policy the caller set. -/
theorem dedupeOf_keyed {request : EnqueueRequest V}
    (hkey : ∀ dedupe, request.dedupe = some dedupe → dedupe.key ≠ "") :
    Redis.dedupeOf request = request.dedupe := by
  rw [Redis.dedupeOf]
  cases hd : request.dedupe with
  | none => rfl
  | some dedupe => rw [Option.filter_some, if_pos (decide_eq_true (hkey dedupe hd))]

/-- A delay that is not positive counts as none. -/
theorem state_of_delay (delayMs : ℤ) : (if 0 < max 0 delayMs then JobState.delayed else .waiting) =
    if 0 < delayMs then .delayed else .waiting :=
  if_congr (by simp) rfl rfl

theorem Redis.requeue_frame (ks : Redis.Keyspace V) (id : JobId) (job : Redis.JobHash V) (delayMs : ℤ)
    (exit : Option V) (now : ℤ) :
    (Redis.requeue ks id job delayMs exit now).beside = ks.beside ∧
      (Redis.requeue ks id job delayMs exit now).seq = ks.seq + 1 := by
  unfold Redis.requeue
  dsimp only
  split <;> exact ⟨rfl, rfl⟩

section Verbs

variable {ks : Redis.Keyspace V} {s : Memory.Store V} (h : Agrees indexes ks s) {id : JobId}
  {job : Redis.JobHash V} {now : Millis}

include h

theorem Agrees.found (hjob : ks.jobs.get? id = some job) :
    s.jobs.get? id = some (job.stored (ks.attempts id)) := by
  rw [jobs_of_board h.board, hjob, Option.map_some]

theorem Agrees.absent (hnone : ks.jobs.get? id = none) : s.jobs.get? id = none := by
  rw [jobs_of_board h.board, hnone, Option.map_none]

theorem Agrees.seq : ks.seq = s.seq := congrArg Board.seq h.board

/-- One job is written over, and at most a number is drawn. -/
theorem Agrees.moved {ks' : Redis.Keyspace V} {c : Redis.Change V} (hjob : ks.jobs.get? id = some job)
    (hm : Redis.Moves indexes ks ks' id job c) (hbeside : ks'.beside = ks.beside) {seq : ℕ}
    (hseq : ks'.seq = seq) :
    ks'.board = { s.board with seq }.put ((c.apply job).stored (c.ledger job (ks.attempts id))) := by
  rw [hm.board (h.sound.consistent.sound id job hjob).keyed hbeside, h.board, hseq]

/-- Both drivers write the ended job, post its report, free its key and trim its group. -/
theorem Agrees.concludes (hjob : ks.jobs.get? id = some job) (hreadable : Redis.Readable job.keep)
    {e : Redis.Ending V} {r : Except (Redis.Keyspace V) (Redis.Keyspace V)}
    (hr : Redis.Concludes indexes ks id job e now r) (he : e.Enabled job) :
    ∃ ks', r = .ok ks' ∧ ks'.board = (s.terminate
      (((Redis.Change.finish e now).apply job).stored
        ((Redis.Change.finish e now).ledger job (ks.attempts id))) e.outcome now).board := by
  obtain ⟨ks₁, hm, hbeside, hseq, rfl⟩ := hr
  have hid := (h.sound.consistent.sound id job hjob).keyed
  have hstep : Redis.Step indexes ks (.change id (.finish e now)) ks₁ := .change _ hjob he hm
  have hjob₁ : ks₁.jobs.get? id = some ((Redis.Change.finish e now).apply job) := by
    rw [hm.jobs, if_pos rfl]
  have hledger : ks₁.attempts id = (Redis.Change.finish e now).ledger job (ks.attempts id) := by
    rw [hm.attempts, Redis.upd_apply, if_pos rfl]
  have hkeep : ((Redis.Change.finish e now).apply job).keep = job.keep := by
    cases e <;> rfl
  have hstate : ((Redis.Change.finish e now).apply job).state = e.outcome.toJobState := by
    cases e <;> rfl
  have hname : ((Redis.Change.finish e now).apply job).name = job.name :=
    ((Redis.Change.finish e now).keeps job).2.1
  have hboard₁ := hm.board hid hbeside
  rw [hseq] at hboard₁
  obtain ⟨g, ks₂, ks', hholds, hboard₂, hok, htrims⟩ := Redis.wrapUp_board
    (hstep.consistent h.sound.consistent) (hstep.numbered h.sound.consistent h.numbered) hjob₁
    (by rw [hkeep]; exact hreadable) e.outcome now
  rw [hledger, hboard₁] at hboard₂
  rw [hkeep] at htrims
  rw [hname] at hholds hok
  generalize hX : ((Redis.Change.finish e now).apply job).stored
    ((Redis.Change.finish e now).ledger job (ks.attempts id)) = X at *
  have hXkeep : X.keep = job.keep := by rw [← hX]; exact hkeep
  have hXname : X.name = job.name := by rw [← hX]; exact hname
  have hXstate : X.state = e.outcome.toJobState := by rw [← hX]; exact hstate
  obtain ⟨s₁, hsame, -, hterminate⟩ := Memory.terminate_concludes s X e.outcome now
  have hboards : ks₂.board = s₁.board := by
    rw [hboard₂, hsame, ← h.board, Board.conclude]
    rfl
  have hgroup := holdsGroup_of_board hholds hboards
  rw [← hXname] at hgroup
  have htrims' := Memory.board_applyKeep hgroup hXstate now
  rw [← hboards, hXkeep] at htrims'
  refine ⟨ks', hok, ?_⟩
  rw [hterminate]
  exact htrims.eq htrims'

/-- A script that may stop does not, and its answer and its board are those of the in-memory driver. -/
def Settles {α : Type} (r : Except (Redis.Keyspace V) (α × Redis.Keyspace V)) (r' : α × Memory.Store V) :
    Prop :=
  ∃ r₁, r = .ok r₁ ∧ Alike r₁ r'

/-- A job without a manifest is cancelled by one terminal transition. -/
theorem Agrees.cancels (hjob : ks.jobs.get? id = some job) (hreadable : Redis.Readable job.keep)
    {e : Redis.Ending V} {r : Except (Redis.Keyspace V) (Redis.Keyspace V)}
    (hr : Redis.Concludes indexes ks id job e now r) (he : e.Enabled job) {held : Memory.MemJob V}
    (hheld : held.state ≠ .waitingChildren) (houtcome : e.outcome = .cancelled)
    (hend : ((Redis.Change.finish e now).apply job).stored
        ((Redis.Change.finish e now).ledger job (ks.attempts id)) =
      Memory.recordAttempt { Memory.clearLock held with
        cancelRequested := false, state := .cancelled, finishedAt := some now } .cancelled now none) :
    Settles (r.map fun ks' => ((.ok () : Except StoreError Unit), ks'))
      (.ok (), Memory.markCancelled s held now) := by
  obtain ⟨ks', rfl, hboard⟩ := h.concludes hjob hreadable hr he
  refine ⟨(.ok (), ks'), rfl, rfl, ?_⟩
  have hmark : Memory.markCancelled s held now = s.terminate (Memory.recordAttempt
      { Memory.clearLock held with
        cancelRequested := false, state := .cancelled, finishedAt := some now } .cancelled now none)
      .cancelled now := by
    have hidle : ¬ (Memory.clearLock held).state = .waitingChildren := hheld
    simp only [Memory.markCancelled, Memory.Core.settleIfParked, if_neg hidle]
  rw [hboard, hend, houtcome, hmark]

theorem Agrees.cancel (hplain : ∀ job, ks.jobs.get? id = some job → job.flow = none ∧ Redis.Readable job.keep)
    (now : Millis) : Settles (Redis.cancel ks id now) (Memory.cancelJob s now id) := by
  cases hjob : ks.jobs.get? id with
  | none =>
    rw [Redis.cancel, hjob, Memory.cancelJob, h.absent hjob]
    exact ⟨_, rfl, rfl, h.board⟩
  | some job =>
    obtain ⟨hflow, hreadable⟩ := hplain job hjob
    have hformed := h.wellFormed.some hjob
    have hfound := h.found hjob
    have hidle : ∀ (hstate : job.state = .waiting ∨ job.state = .delayed),
        Settles ((Redis.conclude (Redis.addTerminal (Redis.countsMove (Redis.hset (Redis.remDelayed
          (Redis.remWaiting ks job.queue id) job.queue id) id fun job => { job with
            state := .cancelled, finishedAt := some now, cancelRequested := false }) job.queue job.state
            .cancelled) job.name .cancelled now id) id job.name .cancelled .cancelled job.processedAt
          none now).map fun ks' => ((.ok () : Except StoreError Unit), ks'))
          (.ok (), Memory.markCancelled s (job.stored (ks.attempts id)) now) := by
      intro hstate
      have hany : job.state = .waiting ∨ job.state = .delayed ∨ job.state = .waitingChildren := by
        tauto
      have hout : job.state ≠ .active ∧ job.state.isTerminal = false ∧ job.state ≠ .waitingChildren := by
        rcases hstate with hs | hs <;> rw [hs] <;> decide
      obtain ⟨hlock, -, -, -⟩ := hformed.idle hout.1 hout.2.1
      refine h.cancels hjob hreadable (Redis.cancelIdle_concludes now h.sound.consistent hjob hany) hany
        (by exact hout.2.2) rfl ?_
      simp only [Redis.Change.apply, Redis.endHash, Redis.JobHash.stored, hlock]
      rfl
    rw [Redis.cancel, hjob, Memory.cancelJob, hfound]
    dsimp only
    have hstored : (job.stored (ks.attempts id)).state = job.state := rfl
    rw [hstored]
    cases hstate : job.state with
    | waiting =>
      rw [hstate] at hidle
      simp only [reduceCtorEq, if_false]
      exact hidle (.inl rfl)
    | delayed =>
      rw [hstate] at hidle
      simp only [reduceCtorEq, if_false]
      exact hidle (.inr rfl)
    | waitingChildren =>
      have hparked := hformed.parked hstate
      rw [hflow] at hparked
      cases hparked
    | active =>
      refine ⟨_, rfl, rfl, ?_⟩
      have hm := Redis.moves_hset h.sound.consistent hjob .requestCancel
        (fun job => { job with cancelRequested := true }) rfl rfl rfl rfl fun key => by cases key <;> rfl
      dsimp only
      rw [h.moved hjob hm rfl h.seq, Memory.board_putJob]
      simp only [Redis.Change.apply, Redis.JobHash.stored, hstate]
      rfl
    | completed | failed | cancelled => exact ⟨_, rfl, rfl, h.board⟩

/-! ## Inserting -/

theorem Agrees.has (id : JobId) : ks.jobs.has id = s.jobs.has id := by
  have hjobs := jobs_of_board h.board id
  rw [JsMap.has, JsMap.has, hjobs, Option.isSome_map]

theorem Agrees.entry (key : String) :
    s.dedupes.get? key = (ks.dedupes.get? key).map Redis.DedupeHash.stored :=
  (congrFun (congrArg Board.dedupes h.board) key).symm

/-- What the decision tree answers, on both. -/
def AlikeAnswers (a : Option (Redis.EnqueueReply × Redis.Keyspace V))
    (a' : Option (EnqueueResult × Memory.Store V)) : Prop :=
  match a, a' with
  | none, none => True
  | some (reply, ks'), some (result, s') =>
    reply = .enqueued result.id result.duplicate ∧ ks'.board = s'.board
  | _, _ => False

theorem Agrees.decides (request : EnqueueRequest V) (dedupe : DedupePolicy) (now : Millis) :
    AlikeAnswers (Redis.dedupeDecision ks now request dedupe)
      (Memory.dedupeDecision s now request dedupe) := by
  have hkey : Memory.dedupeMapKey request.name dedupe.key =
      Redis.dedupeStoreKey request.name dedupe.key := rfl
  rw [Redis.dedupeDecision, Memory.dedupeDecision]
  dsimp only
  rw [hkey, h.entry]
  generalize Redis.dedupeStoreKey request.name dedupe.key = key
  cases hentry : ks.dedupes.get? key with
  | none => trivial
  | some entry =>
    rw [Option.map_some]
    dsimp only
    have hjobId : entry.stored.jobId = entry.jobId := rfl
    have hlive : entry.stored.live now = entry.live now := rfl
    have hexpires : entry.stored.expiresAt = entry.expiresAt := rfl
    rw [hjobId, hlive, hexpires, jobs_of_board h.board]
    have hfilter : ((ks.jobs.get? entry.jobId).map fun job => job.stored (ks.attempts entry.jobId)).filter
          (fun keyed => dedupe.replace && decide (keyed.state = .delayed)) =
        ((ks.jobs.get? entry.jobId).filter fun job => dedupe.replace && decide (job.state = .delayed)).map
          fun job => job.stored (ks.attempts entry.jobId) := by
      rw [Option.filter_map]
      rfl
    have hany : ((ks.jobs.get? entry.jobId).map fun job => job.stored (ks.attempts entry.jobId)).any
          (fun keyed => !keyed.state.isTerminal) =
        (ks.jobs.get? entry.jobId).any fun keyed => !keyed.state.isTerminal := by
      rw [Option.any_map]
      rfl
    rw [hfilter, hany]
    cases hkeyed : (ks.jobs.get? entry.jobId).filter fun job =>
        dedupe.replace && decide (job.state = .delayed) with
    | some job =>
      obtain ⟨hjob, hreplace⟩ := Option.filter_eq_some_iff.mp hkeyed
      simp only [Bool.and_eq_true, decide_eq_true_eq] at hreplace
      have hid := (h.sound.consistent.sound _ job hjob).keyed
      have hm : Redis.Moves indexes ks _ entry.jobId job (.replace request now) :=
        Redis.moves_replace hjob hreplace.2 request now
      rw [Option.map_some]
      dsimp only
      refine ⟨congrArg (Redis.EnqueueReply.enqueued · true) hid.symm, ?_⟩
      rw [Redis.board_setWindow, h.moved hjob hm rfl h.seq, Memory.board_signalWake,
        Memory.board_setWindow, Memory.board_putJob]
      rfl
    | none =>
      rw [Option.map_none]
      dsimp only
      split
      · refine ⟨rfl, ?_⟩
        split
        · rw [Redis.board_setWindow, Memory.board_setWindow, h.board]
        · exact h.board
      · split
        · exact ⟨rfl, h.board⟩
        · trivial

theorem Agrees.insert (hnone : ks.jobs.get? id = none) {request : EnqueueRequest V}
    (hkey : ∀ dedupe, request.dedupe = some dedupe → dedupe.key ≠ "") (now : Millis) :
    (Redis.insertJobRow indexes ks id request ((request.dedupe.map DedupePolicy.key).getD "") now).board =
      (Memory.insertJobRecord s id request now).board := by
  have htext : Redis.optionalString ((request.dedupe.map DedupePolicy.key).getD "") =
      request.dedupe.map DedupePolicy.key := by
    cases hd : request.dedupe with
    | none => rfl
    | some dedupe => exact if_neg (hkey dedupe hd)
  rw [Redis.board_insertJobRow (h.wellFormed.none hnone), Memory.insertJobRecord]
  dsimp only
  rw [Memory.board_signalWake, Memory.board_putJob, h.seq, h.board]
  simp only [Redis.JobHash.stored, Redis.jobHash, Memory.newJob, state_of_delay, htext]
  rfl

theorem Agrees.enqueue {request : EnqueueRequest V} (hid : request.id = some id)
    (hkey : ∀ dedupe, request.dedupe = some dedupe → dedupe.key ≠ "") (now : Millis)
    (ids : Memory.IdSource) : ∃ result,
      (Redis.enqueue indexes ks .user id request now).1 = .enqueued result.id result.duplicate ∧
      (Memory.enqueueOne s now request ids).1 = .ok result ∧
      (Redis.enqueue indexes ks .user id request now).2.board =
        (Memory.enqueueOne s now request ids).2.board := by
  have hhas := h.has id
  rw [Redis.enqueue, Memory.enqueueOne, Memory.enqueueDecision, dedupeOf_keyed hkey, hid,
    Option.filter_some, ← hhas]
  by_cases hthere : ks.jobs.has id = true
  · rw [if_pos ⟨by decide, hthere⟩, if_pos hthere]
    exact ⟨⟨id, true⟩, rfl, rfl, h.board⟩
  · rw [if_neg (fun hc => hthere hc.2), if_neg hthere]
    dsimp only
    have hnone := JsMap.has_eq_false.mp (Bool.eq_false_iff.mpr hthere)
    have hinserted := h.insert hnone hkey now
    have hassigned : Memory.assignId s request ids = (some id, s) := by
      unfold Memory.assignId
      rw [hid]
    cases hd : request.dedupe with
    | none =>
      rw [hd] at hinserted
      rw [Option.bind_none, Option.bind_none]
      dsimp only [Redis.resolveId]
      rw [hassigned]
      refine ⟨⟨id, false⟩, rfl, rfl, ?_⟩
      dsimp only [Memory.insertFresh]
      rw [hd]
      exact hinserted
    | some dedupe =>
      have hdecides := h.decides request dedupe now
      rw [Option.bind_some, Option.bind_some]
      cases hreply : Redis.dedupeDecision ks now request dedupe with
      | some answer =>
        cases hresult : Memory.dedupeDecision s now request dedupe with
        | none =>
          rw [hreply, hresult] at hdecides
          exact hdecides.elim
        | some answer' =>
          rw [hreply, hresult] at hdecides
          exact ⟨answer'.1, hdecides.1, rfl, hdecides.2⟩
      | none =>
        cases hresult : Memory.dedupeDecision s now request dedupe with
        | some answer' =>
          rw [hreply, hresult] at hdecides
          exact hdecides.elim
        | none =>
          rw [hd] at hinserted
          dsimp only [Redis.resolveId]
          rw [hassigned]
          refine ⟨⟨id, false⟩, rfl, rfl, ?_⟩
          dsimp only [Memory.insertFresh]
          rw [Redis.board_registerDedupe, hd]
          dsimp only
          rw [Memory.board_register]
          exact congrArg (fun b : Board V => b.register _ _) hinserted

/-! ## Held jobs -/

/-- Both drivers turn down the same tokens. -/
theorem Agrees.locks (hjob : ks.jobs.get? id = some job) (token : String) :
    ((job.stored (ks.attempts id)).state ≠ .active ∨
        (job.stored (ks.attempts id)).lockToken ≠ some token) ↔
      (job.state ≠ .active ∨ job.lockToken ≠ token) := by
  by_cases hactive : job.state = .active
  · obtain ⟨t, ht⟩ := Option.isSome_iff_exists.mp ((h.wellFormed.some hjob).locked.mp hactive)
    simp [Redis.JobHash.stored, hactive, ht]
  · simp [Redis.JobHash.stored, hactive]

theorem Agrees.release (hplain : ∀ job, ks.jobs.get? id = some job → Redis.Readable job.keep)
    (token : String) (now : Millis) :
    Settles (Redis.release ks id token now) (Memory.release s now id token) := by
  cases hjob : ks.jobs.get? id with
  | none =>
    rw [Redis.release, hjob, Memory.release, h.absent hjob]
    exact ⟨_, rfl, rfl, h.board⟩
  | some job =>
    have hlocks := h.locks hjob token
    rw [Redis.release, hjob, Memory.release, h.found hjob]
    dsimp only
    by_cases hlost : job.state ≠ .active ∨ job.lockToken ≠ token
    · rw [if_pos hlost, if_pos (hlocks.mpr hlost)]
      exact ⟨_, rfl, rfl, h.board⟩
    · rw [if_neg hlost, if_neg (fun hl => hlost (hlocks.mp hl))]
      have hactive : job.state = .active := not_not.mp (not_or.mp hlost).1
      have hflag : (job.stored (ks.attempts id)).cancelRequested = job.cancelRequested := rfl
      rw [hflag]
      by_cases hcancel : job.cancelRequested = true
      · rw [if_pos hcancel, if_pos hcancel]
        have hheld : (job.stored (ks.attempts id)).state ≠ .waitingChildren := by
          simp [Redis.JobHash.stored, hactive]
        exact h.cancels hjob (hplain job hjob)
          (Redis.finishCancelled_concludes h.sound.consistent hjob hactive) hactive hheld rfl rfl
      · rw [if_neg hcancel, if_neg hcancel]
        refine ⟨_, rfl, rfl, ?_⟩
        have hm := Redis.release_moves h.sound.consistent hjob hactive
        dsimp only
        rw [h.moved hjob hm rfl h.seq, Memory.board_signalWake, Memory.board_putJob]
        rfl

theorem Agrees.requeue (hjob : ks.jobs.get? id = some job) (hactive : job.state = .active)
    (hcancel : job.cancelRequested = false) (delayMs : ℤ) (exit : Option V) :
    (Redis.requeue (Redis.remActive (Redis.hset ks id fun job =>
        { job with attemptsMade := job.attemptsMade + 1 }) id) id job delayMs exit now).board =
      (Memory.ackOutcome s now (job.stored (ks.attempts id)) (.retry delayMs exit)).board := by
  have hm := Redis.requeue_moves now h.sound.consistent hjob hactive delayMs exit
  obtain ⟨hbeside, hseq⟩ := Redis.requeue_frame (Redis.remActive (Redis.hset ks id fun job =>
    { job with attemptsMade := job.attemptsMade + 1 }) id) id job delayMs exit now
  have hdrawn := hseq.trans (congrArg (· + 1) h.seq)
  rw [h.moved hjob hm hbeside hdrawn]
  have hflag : ¬ (Memory.clearLock (job.stored (ks.attempts id))).cancelRequested = true :=
    Bool.eq_false_iff.mp hcancel
  rw [Memory.ackOutcome]
  dsimp only
  rw [if_neg (by exact hflag), Memory.board_signalWake, Memory.board_putJob, h.seq]
  simp only [Redis.Change.apply, Redis.unlocked, Redis.JobHash.stored, state_of_delay]
  rfl

theorem Agrees.ack (hplain : ∀ job, ks.jobs.get? id = some job → Redis.Readable job.keep)
    (token : String) (outcome : Redis.Settled V) (now : Millis) :
    Settles (Redis.ack ks id token outcome now) (Memory.ack s now id token outcome.toOutcome) := by
  have hids : Memory.AckOutcome.lacksId outcome.toOutcome = false := by
    cases outcome <;> rfl
  cases hjob : ks.jobs.get? id with
  | none =>
    rw [Redis.ack, hjob, Memory.ack, h.absent hjob]
    exact ⟨_, rfl, rfl, h.board⟩
  | some job =>
    have hlocks := h.locks hjob token
    rw [Redis.ack, hjob, Memory.ack, h.found hjob]
    dsimp only
    by_cases hlost : job.state ≠ .active ∨ job.lockToken ≠ token
    · rw [if_pos hlost, if_pos (hlocks.mpr hlost)]
      exact ⟨_, rfl, rfl, h.board⟩
    · rw [if_neg hlost, if_neg (fun hl => hlost (hlocks.mp hl)), hids, if_neg (by decide)]
      have hactive : job.state = .active := not_not.mp (not_or.mp hlost).1
      have hreadable := hplain job hjob
      have hcancels : Redis.Concludes indexes ks id job .ackCancelled now _ :=
        Redis.finish_concludes .ackCancelled h.sound.consistent hjob hactive none .cancelled none rfl rfl
      cases outcome with
      | complete exit =>
        have hends : Redis.Concludes indexes ks id job (.complete exit) now _ :=
          Redis.finish_concludes (.complete exit) h.sound.consistent hjob hactive (some exit) .completed exit
            rfl rfl
        obtain ⟨ks', hok, hboard⟩ := h.concludes hjob hreadable hends hactive
        exact ⟨(.ok (), ks'), congrArg (Except.map _) hok, rfl, hboard⟩
      | fail exit =>
        have hends : Redis.Concludes indexes ks id job (.fail exit) now _ :=
          Redis.finish_concludes (.fail exit) h.sound.consistent hjob hactive (some exit) .failed exit rfl rfl
        obtain ⟨ks', hok, hboard⟩ := h.concludes hjob hreadable hends hactive
        exact ⟨(.ok (), ks'), congrArg (Except.map _) hok, rfl, hboard⟩
      | cancelled =>
        obtain ⟨ks', hok, hboard⟩ := h.concludes hjob hreadable hcancels hactive
        exact ⟨(.ok (), ks'), congrArg (Except.map _) hok, rfl, hboard⟩
      | retry delayMs exit =>
        dsimp only
        by_cases hcancel : job.cancelRequested = true
        · rw [if_pos hcancel]
          have hheld : (job.stored (ks.attempts id)).state ≠ .waitingChildren := by
            simp [Redis.JobHash.stored, hactive]
          have hmark : Memory.ackOutcome s now (job.stored (ks.attempts id)) (.retry delayMs exit) =
              Memory.markCancelled s { Memory.clearLock (job.stored (ks.attempts id)) with
                attemptsMade := job.attemptsMade + 1 } now :=
            if_pos hcancel
          rw [Redis.Settled.toOutcome, hmark]
          exact h.cancels hjob hreadable hcancels hactive hheld rfl rfl
        · rw [if_neg hcancel]
          exact ⟨_, rfl, rfl, h.requeue hjob hactive (Bool.eq_false_iff.mpr hcancel) delayMs exit⟩

/-! ## Maintenance -/

theorem Agrees.retry (id : JobId) (now : Millis) :
    Alike (Redis.retry ks id now) (Memory.retry s now id) := by
  cases hjob : ks.jobs.get? id with
  | none =>
    rw [Redis.retry, hjob, Memory.retry, h.absent hjob]
    exact ⟨rfl, h.board⟩
  | some job =>
    by_cases hfailed : job.state = .failed
    · obtain ⟨hanswer, hm, hbeside, hseq⟩ := Redis.retry_moves now h.sound.consistent hjob hfailed
      have hdrawn := hseq.trans (congrArg (· + 1) h.seq)
      rw [Memory.retry, h.found hjob]
      dsimp only
      rw [if_neg (by exact not_not.mpr hfailed)]
      refine ⟨hanswer, ?_⟩
      rw [h.moved hjob hm hbeside hdrawn, Memory.board_signalWake, Memory.board_putJob, h.seq]
      rfl
    · rw [Redis.retry, hjob, Memory.retry, h.found hjob]
      dsimp only
      rw [if_pos hfailed, if_pos (by exact hfailed)]
      exact ⟨rfl, h.board⟩

theorem Agrees.promote (id : JobId) (now : Millis) :
    Alike (Redis.promote ks id now) (Memory.promote s now id) := by
  cases hjob : ks.jobs.get? id with
  | none =>
    rw [Redis.promote, hjob, Memory.promote, h.absent hjob]
    exact ⟨rfl, h.board⟩
  | some job =>
    by_cases hdelayed : job.state = .delayed
    · obtain ⟨hanswer, hm, hbeside, hseq⟩ := @Redis.promote_moves V indexes ks id job now hjob hdelayed
      rw [Memory.promote, h.found hjob]
      dsimp only
      rw [if_neg (by exact not_not.mpr hdelayed)]
      refine ⟨hanswer, ?_⟩
      rw [h.moved hjob hm hbeside (hseq.trans h.seq), Memory.board_signalWake, Memory.board_putJob]
      rfl
    · rw [Redis.promote, hjob, Memory.promote, h.found hjob]
      dsimp only
      rw [if_pos hdelayed, if_pos (by exact hdelayed)]
      exact ⟨rfl, h.board⟩

theorem Agrees.remove (id : JobId) : Alike (Redis.remove ks id) (Memory.remove s id) := by
  cases hjob : ks.jobs.get? id with
  | none =>
    rw [Redis.remove, hjob, Memory.remove, h.absent hjob]
    exact ⟨rfl, h.board⟩
  | some job =>
    rw [Redis.remove, hjob, Memory.remove, h.found hjob]
    dsimp only
    by_cases hbusy : job.state = .active ∨ job.state = .waitingChildren
    · rw [if_pos hbusy, if_pos (by exact hbusy)]
      exact ⟨rfl, h.board⟩
    · rw [if_neg hbusy, if_neg (by exact hbusy)]
      refine ⟨rfl, ?_⟩
      rw [Redis.board_deleteJob hjob, Memory.board_deleteJob, h.board]

theorem Agrees.pause (queue : QueueName) :
    (Redis.pause ks queue).board = (Memory.pause s queue).board := by
  have hpaused : ks.paused = s.paused := congrArg Board.paused h.board
  rw [Redis.pause, Memory.pause, hpaused]
  split
  · exact h.board
  · exact congrArg (fun b : Board V => { b with paused := s.paused ++ [queue] }) h.board

theorem Agrees.resume (queue : QueueName) :
    (Redis.resume ks queue).board = (Memory.resume s queue).board := by
  have hpaused : ks.paused = s.paused := congrArg Board.paused h.board
  have hfiltered : (Redis.resume ks queue).board =
      { s.board with paused := s.paused.filter fun q => decide (q ≠ queue) } := by
    rw [← h.board, ← hpaused]
    rfl
  rw [hfiltered, Memory.resume]
  split
  · rw [Memory.board_signalWake]
    rfl
  next hout =>
    have hkept : s.paused.filter (fun q => decide (q ≠ queue)) = s.paused := by
      rw [List.filter_eq_self]
      intro q hq
      exact decide_eq_true fun heq => hout (heq ▸ hq)
    rw [hkept]
    rfl

theorem Agrees.history : s.toCore.history = ks.history := by
  have howed : s.toCore.owesCascades = Redis.owesCascades ks := (congrArg Board.owed h.board).symm
  funext id
  rw [Memory.Core.history, howed, jobs_of_board h.board, Redis.Keyspace.history]
  cases ks.jobs.get? id <;> rfl

/-- The history sweep of either driver drops the same jobs. -/
theorem Agrees.sweeps (ttlByState : HistoryTtlByState) (now : Millis)
    (hbounds : NonnegativeBounds ks.history ttlByState) : SweepsAgree s ks ttlByState now := by
  refine ⟨Redis.sweepHistory_prunes now h.sound.finishedIndexed hbounds, ?_⟩
  rw [← h.history]
  exact Memory.sweepHistory_prunes h.keyed ttlByState now

end Verbs

end EffectMq
