import EffectMq.RedisJobStore.Decompose

/-! # Runs of the Redis driver

Any scripts, in any order and at any clock readings, from a prefix nothing was written under. What the
elementary steps keep of one hash and its ledger holds of every hash in every run.
-/

namespace EffectMq.Redis
set_option autoImplicit false
set_option maxHeartbeats 250000

open Indexes Transition

variable {V : Type} {indexes : IndexConfig}

/-! ## Calls -/

/-- One script at a clock reading. The numbers still fit the sixteen digits of a waiting member. -/
inductive Calls (indexes : IndexConfig) : Keyspace V → Script V × ℤ → Keyspace V → Prop
  | call {ks : Keyspace V} (script : Script V) (now : ℤ) (hfits : script.Fits indexes)
      (hseq : (ks.run indexes now script).seq < 10 ^ 16) :
      Calls indexes ks (script, now) (ks.run indexes now script)

theorem Calls.eq {ks ks' : Keyspace V} {script : Script V} {now : ℤ}
    (hcall : Calls indexes ks (script, now) ks') : ks' = ks.run indexes now script := by
  cases hcall
  rfl

def Keyspace.Fresh (ks : Keyspace V) : Prop := ks = Keyspace.empty

/-- What the indexes say is what the hashes say, and the numbers fit. -/
structure Sound (indexes : IndexConfig) (ks : Keyspace V) : Prop where
  consistent : Consistent indexes ks
  seq : ks.seq < 10 ^ 16

theorem sound_empty : Sound indexes (Keyspace.empty : Keyspace V) :=
  ⟨consistent_empty, Nat.pow_pos (by decide)⟩

theorem Calls.does {ks ks' : Keyspace V} {script : Script V} {now : ℤ} (h : Sound indexes ks)
    (hcall : Calls indexes ks (script, now) ks') : Does indexes (Allows now script) ks ks' := by
  cases hcall with
  | call _ _ hfits _ => exact run_does h.consistent h.seq now script hfits

theorem Calls.sound {ks ks' : Keyspace V} {e : Script V × ℤ} (hcall : Calls indexes ks e ks')
    (h : Sound indexes ks) : Sound indexes ks' := by
  obtain ⟨script, now⟩ := e
  refine ⟨(hcall.does h).consistent h.consistent, ?_⟩
  cases hcall with
  | call _ _ _ hseq => exact hseq

theorem reachable_sound {ks : Keyspace V} (h : Reachable Keyspace.Fresh (Calls indexes) ks) :
    Sound indexes ks := by
  refine h.induct (I := Sound indexes) ?_ fun ks e ks' hcall => hcall.sound
  rintro ks rfl
  exact sound_empty

/-- What the dedup sweep relies on. -/
theorem reachable_dedupesIndexed {ks : Keyspace V}
    (h : Reachable Keyspace.Fresh (Calls indexes) ks) : ks.DedupesIndexed := by
  refine h.induct (I := Keyspace.DedupesIndexed) ?_ fun ks e ks' hcall hindexed => ?_
  · rintro ks rfl
    exact fun _ => rfl
  · rw [hcall.eq]
    exact run_dedupesIndexed indexes e.2 e.1 hindexed

/-- The scripts of a list, one after the other. -/
def Keyspace.runs (indexes : IndexConfig) (ks : Keyspace V) (es : List (Script V × ℤ)) : Keyspace V :=
  es.foldl (fun ks e => ks.run indexes e.2 e.1) ks

theorem runs_calls {ks : Keyspace V} {es : List (Script V × ℤ)}
    (hfits : ∀ e ∈ es, e.1.Fits indexes)
    (hseq : ∀ n ≤ es.length, (ks.runs indexes (es.take n)).seq < 10 ^ 16) :
    Run (Calls indexes) ks es (ks.runs indexes es) := by
  induction es generalizing ks with
  | nil => exact .refl ks
  | cons e es ih =>
    refine .cons (.call e.1 e.2 (hfits e List.mem_cons_self) (hseq 1 (by simp))) ?_
    exact ih (fun e' he' => hfits e' (List.mem_cons_of_mem _ he')) fun n hn =>
      hseq (n + 1) (Nat.succ_le_succ hn)

theorem reachable_runs {es : List (Script V × ℤ)} (hfits : ∀ e ∈ es, e.1.Fits indexes)
    (hseq : ∀ n ≤ es.length, (Keyspace.empty.runs indexes (es.take n)).seq < 10 ^ 16) :
    Reachable Keyspace.Fresh (Calls indexes) (Keyspace.empty.runs indexes es) :=
  ⟨_, es, rfl, runs_calls hfits hseq⟩

/-- Two mails, the first of them delivered. -/
def mailRun : List (Script ℕ × ℤ) :=
  [(.enqueue .user "a" (.plain "a" "mail" "default" 7), 0),
   (.enqueue .user "b" (.plain "b" "mail" "default" 8), 1),
   (.claim ⟨"default", ["mail"], "t1", 1000⟩, 2),
   (.ack "a" "t1" (.complete (some 1)), 3)]

theorem fits_mailRun {indexes : IndexConfig} : ∀ e ∈ mailRun, e.1.Fits indexes := by
  intro e he
  simp only [mailRun, List.mem_cons, List.not_mem_nil, or_false] at he
  rcases he with rfl | rfl | rfl | rfl <;> trivial

theorem reachable_mailRun :
    Reachable Keyspace.Fresh (Calls ⟨true, true⟩) (Keyspace.empty.runs ⟨true, true⟩ mailRun) :=
  reachable_runs fits_mailRun (by decide)

/-- Every index lists exactly the jobs that belong there and every counter counts them, after any
scripts whatever. -/
theorem reachable_consistent {ks : Keyspace V} (h : Reachable Keyspace.Fresh (Calls indexes) ks) :
    Consistent indexes ks :=
  (reachable_sound h).consistent

theorem mailRun_consistent : Consistent ⟨true, true⟩ (Keyspace.empty.runs ⟨true, true⟩ mailRun) :=
  reachable_consistent reachable_mailRun

/-! ## What holds of every hash -/

/-- A job that is gone left no ledger, and of every other one `I` holds. -/
def AllHashes (I : JobHash V → List (AttemptRecord V) → Prop) (ks : Keyspace V) : Prop :=
  ∀ id, (ks.jobs.get? id).elim (ks.attempts id = []) fun job => I job (ks.attempts id)

section AllHashes

variable {I : JobHash V → List (AttemptRecord V) → Prop} {ks ks' : Keyspace V}

theorem AllHashes.none (h : AllHashes I ks) {id : JobId} (hnone : ks.jobs.get? id = none) :
    ks.attempts id = [] := by
  have hid := h id
  rw [hnone] at hid
  exact hid

theorem AllHashes.some (h : AllHashes I ks) {id : JobId} {job : JobHash V}
    (hjob : ks.jobs.get? id = some job) : I job (ks.attempts id) := by
  have hid := h id
  rw [hjob] at hid
  exact hid

/-- The rule for one hash: an insert makes it true and the changes keep it. -/
theorem Step.allHashes
    (hinsert : ∀ id (request : EnqueueRequest V) key now seq, I (jobHash id request key now seq) [])
    (hchange : ∀ (job : JobHash V) attempts (c : Change V), c.Enabled job → I job attempts →
      I (c.apply job) (c.ledger job attempts))
    {l : Label V} (hs : Step indexes ks l ks') (h : AllHashes I ks) : AllHashes I ks' := by
  intro id'
  cases hs with
  | quiet hq ha =>
    rw [hq.jobs, ha]
    exact h id'
  | insert request key now hnone hjob hseq hw ha =>
    rename_i id
    rw [ha]
    by_cases hid : id' = id
    · subst hid
      rw [hjob, h.none hnone]
      exact hinsert ..
    · rw [hw.others id' hid]
      exact h id'
  | change c hjob hc hm =>
    rename_i id job
    rw [hm.jobs, hm.attempts, upd_apply]
    by_cases hid : id' = id
    · subst hid
      rw [if_pos rfl, if_pos rfl]
      exact hchange job _ c hc (h.some hjob)
    · rw [if_neg hid, if_neg hid]
      exact h id'
  | remove hjob hidle hnone hw ha | prune hjob hterminal hnone hw ha =>
    rename_i id job
    rw [ha, upd_apply]
    by_cases hid : id' = id
    · subst hid
      rw [hnone, if_pos rfl]
      rfl
    · rw [hw.others id' hid, if_neg hid]
      exact h id'

theorem Calls.allHashes
    (hinsert : ∀ id (request : EnqueueRequest V) key now seq, I (jobHash id request key now seq) [])
    (hchange : ∀ (job : JobHash V) attempts (c : Change V), c.Enabled job → I job attempts →
      I (c.apply job) (c.ledger job attempts))
    {e : Script V × ℤ} (hcall : Calls indexes ks e ks') (hks : Sound indexes ks) (h : AllHashes I ks) :
    AllHashes I ks' :=
  (hcall.does hks).preserves (fun _ _ _ _ hs => hs.allHashes hinsert hchange) h

theorem reachable_allHashes
    (hinsert : ∀ id (request : EnqueueRequest V) key now seq, I (jobHash id request key now seq) [])
    (hchange : ∀ (job : JobHash V) attempts (c : Change V), c.Enabled job → I job attempts →
      I (c.apply job) (c.ledger job attempts))
    (h : Reachable Keyspace.Fresh (Calls indexes) ks) : AllHashes I ks := by
  have hboth : Sound indexes ks ∧ AllHashes I ks := by
    refine h.induct (I := fun ks => Sound indexes ks ∧ AllHashes I ks) ?_ ?_
    · rintro ks rfl
      exact ⟨sound_empty, fun _ => rfl⟩
    · rintro ks e ks' hcall ⟨hks, hI⟩
      exact ⟨hcall.sound hks, hcall.allHashes hinsert hchange hks hI⟩
  exact hboth.2

end AllHashes

/-! ## Well-formed hashes -/

/-- The last entry of a ledger under a terminal state. -/
def closes : JobState → AttemptOutcome → Bool
  | .completed, .completed | .failed, .failed | .failed, .stalled | .cancelled, .cancelled => true
  | _, _ => false

/-- The fields of a hash that go with its state, and its ledger. -/
structure JobHash.WellFormed (job : JobHash V) (attempts : List (AttemptRecord V)) : Prop where
  locked : job.state = .active ↔ job.lockExpiresAt.isSome
  token : job.state ≠ .active → job.lockToken = ""
  flagged : job.cancelRequested = true → job.state = .active
  started : job.state = .active → job.processedAt.isSome
  finished : job.state.isTerminal = true ↔ job.finishedAt.isSome
  parked : job.state = .waitingChildren → job.flow.isSome
  numbered : attempts.map (·.attempt) = (List.range attempts.length).map (· + 1)
  counted : job.attemptsMade ≤ attempts.length
  closed : job.state.isTerminal = true → ∃ last, attempts.getLast? = some last ∧
    closes job.state last.outcome = true ∧ some last.finishedAt = job.finishedAt

theorem length_ledger (job : JobHash V) (attempts : List (AttemptRecord V)) (c : Change V) :
    (c.ledger job attempts).length = attempts.length + c.outcomes.length := by
  unfold Change.ledger
  induction c.outcomes generalizing attempts with
  | nil => rfl
  | cons entry entries ih =>
    rw [List.foldl_cons, ih, appendOutcome]
    simp
    omega

theorem numbered_ledger (job : JobHash V) {attempts : List (AttemptRecord V)} (c : Change V)
    (h : attempts.map (·.attempt) = (List.range attempts.length).map (· + 1)) :
    (c.ledger job attempts).map (·.attempt) =
      (List.range (c.ledger job attempts).length).map (· + 1) := by
  unfold Change.ledger
  induction c.outcomes generalizing attempts with
  | nil => exact h
  | cons entry entries ih =>
    apply ih
    rw [appendOutcome, List.map_append, List.length_append, List.length_singleton, List.range_succ,
      List.map_append, h]
    rfl

section WellFormed

variable {job : JobHash V} {attempts : List (AttemptRecord V)}

/-- A job in its queue. -/
theorem JobHash.WellFormed.queued (hstate : job.state = .waiting ∨ job.state = .delayed)
    (hlock : job.lockExpiresAt = none) (htoken : job.lockToken = "") (hflag : job.cancelRequested = false)
    (hfinished : job.finishedAt = none)
    (hnumbered : attempts.map (·.attempt) = (List.range attempts.length).map (· + 1))
    (hcounted : job.attemptsMade ≤ attempts.length) : job.WellFormed attempts := by
  refine ⟨?_, fun _ => htoken, ?_, ?_, ?_, ?_, hnumbered, hcounted, ?_⟩
  all_goals rcases hstate with hs | hs <;> rw [hs] <;> simp [hlock, hflag, hfinished, JobState.isTerminal]

/-- A job at its end, with the entry that closes its ledger. -/
theorem JobHash.WellFormed.ended {entry : AttemptRecord V} (hstate : job.state.isTerminal = true)
    (hlock : job.lockExpiresAt = none) (htoken : job.lockToken = "") (hflag : job.cancelRequested = false)
    (hlast : attempts.getLast? = some entry) (hcloses : closes job.state entry.outcome = true)
    (hfinished : job.finishedAt = some entry.finishedAt)
    (hnumbered : attempts.map (·.attempt) = (List.range attempts.length).map (· + 1))
    (hcounted : job.attemptsMade ≤ attempts.length) : job.WellFormed attempts := by
  have hnot : job.state ≠ .active ∧ job.state ≠ .waitingChildren := by
    refine ⟨?_, ?_⟩ <;> intro hs <;> rw [hs] at hstate <;> cases hstate
  exact ⟨by simp [hlock, hnot], fun _ => htoken, by simp [hflag], by simp [hnot],
    by simp [hstate, hfinished], by simp [hnot], hnumbered, hcounted,
    fun _ => ⟨entry, hlast, hcloses, hfinished.symm⟩⟩

/-- What a well-formed hash holds outside a run. -/
theorem JobHash.WellFormed.idle (h : job.WellFormed attempts) (hactive : job.state ≠ .active)
    (hterminal : job.state.isTerminal = false) :
    job.lockExpiresAt = none ∧ job.lockToken = "" ∧ job.cancelRequested = false ∧
      job.finishedAt = none := by
  refine ⟨?_, h.token hactive, ?_, ?_⟩
  · have hlocked := h.locked
    simpa [hactive] using hlocked
  · exact Bool.eq_false_iff.mpr fun hflag => hactive (h.flagged hflag)
  · have hfinished := h.finished
    simpa [hterminal] using hfinished

theorem JobHash.WellFormed.unfinished (h : job.WellFormed attempts) (hactive : job.state = .active) :
    job.finishedAt = none := by
  have hfinished := h.finished
  simpa [hactive, JobState.isTerminal] using hfinished

theorem wellFormed_jobHash (id : JobId) (request : EnqueueRequest V) (key : String) (now : ℤ)
    (seq : ℕ) : (jobHash id request key now seq).WellFormed [] := by
  refine .queued ?_ rfl rfl rfl rfl rfl le_rfl
  simp only [jobHash]
  split
  · exact .inr rfl
  · exact .inl rfl

/-- The entry that a terminal transition appends. -/
theorem getLast?_ledger (job : JobHash V) (attempts : List (AttemptRecord V)) {c : Change V}
    {outcomes : List (AttemptOutcome × ℤ × Option V)} {outcome : AttemptOutcome} {now : ℤ}
    {exit : Option V} (hc : c.outcomes = outcomes ++ [(outcome, now, exit)]) :
    ∃ entry, (c.ledger job attempts).getLast? = some entry ∧ entry.outcome = outcome ∧
      entry.finishedAt = now := by
  rw [Change.ledger, hc, List.foldl_append, List.foldl_cons, List.foldl_nil, appendOutcome]
  exact ⟨_, List.getLast?_concat, rfl, rfl⟩

theorem JobHash.WellFormed.finish {c : Change V} {now : ℤ} (h : job.WellFormed attempts)
    (outcomes : List (AttemptOutcome × ℤ × Option V)) {outcome : AttemptOutcome} {exit : Option V}
    (hout : c.outcomes = outcomes ++ [(outcome, now, exit)])
    (hterminal : (c.apply job).state.isTerminal = true)
    (hcloses : closes (c.apply job).state outcome = true)
    (hlock : (c.apply job).lockExpiresAt = none) (htoken : (c.apply job).lockToken = "")
    (hflag : (c.apply job).cancelRequested = false) (hfinished : (c.apply job).finishedAt = some now)
    (hmade : (c.apply job).attemptsMade ≤ job.attemptsMade + 1) :
    (c.apply job).WellFormed (c.ledger job attempts) := by
  obtain ⟨entry, hlast, rfl, rfl⟩ := getLast?_ledger job attempts hout
  refine .ended hterminal hlock htoken hflag hlast hcloses hfinished (numbered_ledger job c h.numbered) ?_
  have hlength := length_ledger job attempts c
  have hcounted := h.counted
  rw [hout, List.length_append, List.length_singleton] at hlength
  omega

theorem JobHash.WellFormed.change (c : Change V) (hc : c.Enabled job) (h : job.WellFormed attempts) :
    (c.apply job).WellFormed (c.ledger job attempts) := by
  have hnumbered := numbered_ledger job c h.numbered
  have hlength := length_ledger job attempts c
  have hcounted : (c.apply job).attemptsMade ≤ (c.ledger job attempts).length := by
    have hmade := h.counted
    cases c with
    | finish e now => cases e <;> simp_all [Change.apply, endHash, unlocked, Change.outcomes] <;> omega
    | _ => simp_all [Change.apply, unlocked, replaceHash, claimHash, retryHash, Change.outcomes] <;> omega
  cases c with
  | replace request now | promoteDue | promote now =>
    have hstate : job.state = .delayed := hc
    obtain ⟨hlock, htoken, hflag, hfinished⟩ := h.idle (by rw [hstate]; decide) (by rw [hstate]; rfl)
    refine .queued ?_ hlock htoken hflag hfinished hnumbered hcounted
    first
    | exact .inl rfl
    | exact .inr hstate
  | claim options now =>
    have hstate : job.state = .waiting := hc
    obtain ⟨-, -, hflag, hfinished⟩ := h.idle (by rw [hstate]; decide) (by rw [hstate]; rfl)
    exact ⟨by simp [Change.apply, claimHash], fun hs => absurd rfl hs, fun _ => rfl, fun _ => rfl,
      by simp [Change.apply, claimHash, JobState.isTerminal, hfinished], fun hs => (by cases hs), hnumbered,
      hcounted, fun hs => (by cases hs)⟩
  | extend expiresAt =>
    have hstate : job.state = .active := hc.1
    exact ⟨by simp [Change.apply, hstate], h.token, h.flagged, h.started, h.finished, h.parked, hnumbered,
      hcounted, h.closed⟩
  | requestCancel =>
    exact ⟨h.locked, h.token, fun _ => hc, h.started, h.finished, h.parked, hnumbered, hcounted, h.closed⟩
  | requeue delayMs exit now seq =>
    refine .queued ?_ rfl rfl hc.2 (h.unfinished hc.1) hnumbered hcounted
    simp only [Change.apply]
    split
    · exact .inr rfl
    · exact .inl rfl
  | release | stall now =>
    exact .queued (.inl rfl) rfl rfl hc.2 (h.unfinished hc.1) hnumbered hcounted
  | retry now seq =>
    have hstate : job.state = .failed := hc
    have hlock : job.lockExpiresAt = none := by
      have hlocked := h.locked
      simpa [hstate] using hlocked
    exact .queued (.inl rfl) hlock (h.token (by rw [hstate]; decide)) rfl rfl hnumbered hcounted
  | resume now seq =>
    have hstate : job.state = .waitingChildren := hc.1
    obtain ⟨hlock, htoken, hflag, hfinished⟩ := h.idle (by rw [hstate]; decide) (by rw [hstate]; rfl)
    exact .queued (.inl rfl) hlock htoken hflag hfinished hnumbered hcounted
  | count | settle =>
    refine ⟨h.locked, h.token, h.flagged, h.started, h.finished, fun hs => ?_, hnumbered, hcounted,
      h.closed⟩
    simpa [Change.apply] using h.parked hs
  | park flow now =>
    exact ⟨by simp [Change.apply, unlocked], fun _ => rfl,
      fun hflag => absurd (hc.2.1.symm.trans hflag) (by decide), fun hs => (by cases hs),
      by simp [Change.apply, unlocked, JobState.isTerminal, h.unfinished hc.1], fun _ => rfl, hnumbered,
      hcounted, fun hs => (by cases hs)⟩
  | land flow now seq =>
    exact .queued (.inl rfl) rfl rfl hc.2.1 (h.unfinished hc.1) hnumbered hcounted
  | cancelFanOut flow now =>
    exact h.finish [_] rfl rfl rfl rfl rfl rfl rfl (Nat.le_succ _)
  | finish e now =>
    cases e with
    | complete | fail | ackCancelled | cancelActive =>
      exact h.finish [] rfl rfl rfl rfl rfl rfl rfl (by simp [Change.apply, endHash, unlocked])
    | stalled =>
      exact h.finish [] rfl rfl rfl rfl rfl hc.2 rfl (Nat.le_succ _)
    | cancelIdle =>
      have hidle : job.state ≠ .active ∧ job.state.isTerminal = false := by
        rcases hc with hs | hs | hs <;> rw [hs] <;> exact ⟨by decide, rfl⟩
      obtain ⟨hlock, htoken, -, -⟩ := h.idle hidle.1 hidle.2
      exact h.finish [] rfl rfl rfl hlock htoken rfl rfl (Nat.le_succ _)
    | failFast =>
      have hstate : job.state = .waitingChildren := hc
      obtain ⟨hlock, htoken, -, -⟩ := h.idle (by rw [hstate]; decide) (by rw [hstate]; rfl)
      exact h.finish [] rfl rfl rfl hlock htoken rfl rfl (Nat.le_succ _)

end WellFormed

/-- In every run every hash is well-formed, and a job that is gone left no ledger. -/
theorem reachable_wellFormed {ks : Keyspace V} (h : Reachable Keyspace.Fresh (Calls indexes) ks) :
    AllHashes JobHash.WellFormed ks :=
  reachable_allHashes wellFormed_jobHash (fun _ _ c hc hwf => hwf.change c hc) h

theorem mailRun_wellFormed :
    AllHashes JobHash.WellFormed (Keyspace.empty.runs ⟨true, true⟩ mailRun) :=
  reachable_wellFormed reachable_mailRun

/-! ## The history of a job -/

/-- What a job with hash `job` and ledger `attempts` may have become. Only a retry takes it out of a
terminal state, and the way back adds to the ledger. -/
structure JobHash.Since (job job' : JobHash V) (attempts attempts' : List (AttemptRecord V)) : Prop where
  identity : job'.id = job.id ∧ job'.name = job.name ∧ job'.queue = job.queue ∧
    job'.enqueuedAt = job.enqueuedAt ∧ job'.parent = job.parent ∧ job'.dedupeKey = job.dedupeKey
  number : job.seq ≤ job'.seq
  ledger : attempts <+: attempts'
  terminal : job.state.isTerminal = true →
    (∃ flow, job' = { job with flow } ∧ attempts' = attempts) ∨
      job.state = .failed ∧ (job'.state.isTerminal = false ∨ attempts.length < attempts'.length)

section Since

variable {job job' : JobHash V} {attempts attempts' : List (AttemptRecord V)}

theorem JobHash.Since.refl (job : JobHash V) (attempts : List (AttemptRecord V)) :
    job.Since job attempts attempts :=
  ⟨⟨rfl, rfl, rfl, rfl, rfl, rfl⟩, le_rfl, List.prefix_rfl, fun _ => .inl ⟨job.flow, rfl, rfl⟩⟩

theorem prefix_ledger (job : JobHash V) (attempts : List (AttemptRecord V)) (c : Change V) :
    attempts <+: c.ledger job attempts := by
  unfold Change.ledger
  induction c.outcomes generalizing attempts with
  | nil => exact List.prefix_rfl
  | cons entry entries ih => exact (List.prefix_append _ _).trans (ih _)

/-- A terminal job is counted on, or, if it failed, retried. -/
theorem Change.on_terminal {c : Change V} (hc : c.Enabled job) (h : job.state.isTerminal = true) :
    (∃ flow, c.apply job = { job with flow }) ∧ c.outcomes = [] ∨
      job.state = .failed ∧ (c.apply job).state.isTerminal = false := by
  cases c with
  | count | settle => exact .inl ⟨⟨_, rfl⟩, rfl⟩
  | retry now seq => exact .inr ⟨hc, rfl⟩
  | finish e now =>
    exfalso
    cases e <;> simp [Change.Enabled, Ending.Enabled] at hc <;>
      cases hs : job.state <;> simp_all [JobState.isTerminal]
  | _ =>
    exfalso
    simp only [Change.Enabled] at hc
    cases hs : job.state <;> simp_all [JobState.isTerminal]

/-- Entering a terminal state adds to the ledger. -/
theorem Change.closing {c : Change V} (h : job.state.isTerminal = false)
    (h' : (c.apply job).state.isTerminal = true) : c.outcomes ≠ [] := by
  cases c with
  | finish e now => cases e <;> exact List.cons_ne_nil _ _
  | cancelFanOut => exact List.cons_ne_nil _ _
  | replace | extend | requestCancel | count | settle => exact absurd (h.symm.trans h') (by decide)
  | requeue => exact List.cons_ne_nil _ _
  | _ => cases h'

theorem JobHash.Since.change (c : Change V) (hc : c.Enabled job')
    (hseq : job'.seq ≤ (c.apply job').seq) (h : job.Since job' attempts attempts') :
    job.Since (c.apply job') attempts (c.ledger job' attempts') := by
  obtain ⟨⟨hid, hname, hqueue, henqueued, hparent, hkey⟩, hnumber, hledger, hterminals⟩ := h
  obtain ⟨hid', hname', hqueue', henqueued', hparent', hkey'⟩ := c.keeps job'
  refine ⟨⟨hid'.trans hid, hname'.trans hname, hqueue'.trans hqueue, henqueued'.trans henqueued,
    hparent'.trans hparent, hkey'.trans hkey⟩, hnumber.trans hseq,
    hledger.trans (prefix_ledger job' attempts' c), fun hterminal => ?_⟩
  have hlength := length_ledger job' attempts' c
  rcases hterminals hterminal with ⟨flow, hsame, hkept⟩ | ⟨hfailed, hopen | hlonger⟩
  · have hstate : job'.state = job.state := by rw [hsame]
    rcases c.on_terminal hc (by rw [hstate]; exact hterminal) with ⟨⟨flow', hflow⟩, hout⟩ | ⟨hfailed, hopen⟩
    · refine .inl ⟨flow', by rw [hflow, hsame], ?_⟩
      rw [Change.ledger, hout]
      exact hkept
    · exact .inr ⟨hstate.symm.trans hfailed, .inl hopen⟩
  · refine .inr ⟨hfailed, ?_⟩
    cases hclosed : (c.apply job').state.isTerminal with
    | false => exact .inl rfl
    | true =>
      have hout := List.length_pos_iff.mpr (c.closing hopen hclosed)
      have hprefix := hledger.length_le
      exact .inr (by omega)
  · exact .inr ⟨hfailed, .inr (by omega)⟩

end Since

/-- The job is still there, with its history. -/
def Stays (id : JobId) (job : JobHash V) (attempts : List (AttemptRecord V)) (ks : Keyspace V) : Prop :=
  ∃ job', ks.jobs.get? id = some job' ∧ job.Since job' attempts (ks.attempts id)

section Stays

variable {ks ks' : Keyspace V} {id : JobId} {job : JobHash V} {attempts : List (AttemptRecord V)}

theorem Step.stays {l : Label V} (hs : Step indexes ks l ks') (hks : Consistent indexes ks)
    (h : Stays id job attempts ks) : ks'.jobs.get? id = none ∧ (l = .remove id ∨ l = .prune id) ∨
      Stays id job attempts ks' := by
  obtain ⟨job', hjob', hsince⟩ := h
  cases hs with
  | quiet hq ha =>
    refine .inr ⟨job', by rw [hq.jobs, hjob'], ?_⟩
    rw [ha]
    exact hsince
  | insert request key now hnone hjob hseq hw ha =>
    rename_i id'
    have hid : id ≠ id' := by
      rintro rfl
      cases hnone.symm.trans hjob'
    refine .inr ⟨job', by rw [hw.others id hid, hjob'], ?_⟩
    rw [ha]
    exact hsince
  | change c hjob hc hm =>
    rename_i id' old
    by_cases hid : id = id'
    · subst hid
      obtain rfl := Option.some.inj (hjob.symm.trans hjob')
      refine .inr ⟨c.apply old, by rw [hm.jobs, if_pos rfl], ?_⟩
      rw [hm.attempts, upd_apply, if_pos rfl]
      refine hsince.change c hc ?_
      have hbelow := (hks.sound id old hjob).seq
      rcases hm.number with hkept | ⟨hnew, -⟩ <;> omega
    · refine .inr ⟨job', by rw [hm.jobs, if_neg hid, hjob'], ?_⟩
      rw [hm.attempts, upd_apply, if_neg hid]
      exact hsince
  | remove hgone hidle hnone hw ha =>
    rename_i id' old
    by_cases hid : id = id'
    · subst hid
      exact .inl ⟨hnone, .inl rfl⟩
    · refine .inr ⟨job', by rw [hw.others id hid, hjob'], ?_⟩
      rw [ha, upd_apply, if_neg hid]
      exact hsince
  | prune hgone hterminal hnone hw ha =>
    rename_i id' old
    by_cases hid : id = id'
    · subst hid
      exact .inl ⟨hnone, .inr rfl⟩
    · refine .inr ⟨job', by rw [hw.others id hid, hjob'], ?_⟩
      rw [ha, upd_apply, if_neg hid]
      exact hsince

/-- A script that inserts deletes nothing. -/
theorem Allows.not_both {now : ℤ} {script : Script V} {l l' : Label V} (h : Allows now script l)
    (h' : Allows now script l') (hl : l = .remove id ∨ l = .prune id) (request : EnqueueRequest V)
    (key : String) (now' : ℤ) (id' : JobId) : l' ≠ .insert id' request key now' := by
  rintro rfl
  rcases hl with rfl | rfl
  · cases h with
    | remove => cases h'
  · cases h with
    | prune hprunes =>
      cases h' with
      | enqueue | enqueueMany | tick => exact hprunes

/-- One call keeps the history or deletes the job. -/
theorem Calls.stays {e : Script V × ℤ} (hcall : Calls indexes ks e ks') (hks : Sound indexes ks)
    (h : Stays id job attempts ks) : ks'.jobs.get? id = none ∨ Stays id job attempts ks' := by
  obtain ⟨script, now⟩ := e
  -- once deleted, the job stays away: the script that deletes inserts nothing
  have hkept := (hcall.does hks).preserves (I := fun ks => Consistent indexes ks ∧
    ((ks.jobs.get? id = none ∧ ∃ l, Allows now script l ∧ (l = .remove id ∨ l = .prune id)) ∨
      Stays id job attempts ks)) ?_ ⟨hks.consistent, .inr h⟩
  · rcases hkept.2 with ⟨hnone, -⟩ | hstays
    · exact .inl hnone
    · exact .inr hstays
  · rintro ks l ks' hl hs ⟨hc, ⟨hnone, l₀, hl₀, hdeletes⟩ | hstays⟩
    · refine ⟨hs.consistent hc, .inl ⟨?_, l₀, hl₀, hdeletes⟩⟩
      cases hs with
      | quiet hq _ => rw [hq.jobs, hnone]
      | insert request key now' => exact absurd rfl (hl₀.not_both hl hdeletes request key now' _)
      | change c hjob hc hm =>
        rename_i id' old
        have hid : id ≠ id' := by
          rintro rfl
          cases hnone.symm.trans hjob
        rw [hm.jobs, if_neg hid, hnone]
      | remove hjob hidle hgone hw ha | prune hjob hidle hgone hw ha =>
        rename_i id' old
        by_cases hid : id = id'
        · subst hid
          exact hgone
        · rw [hw.others id hid, hnone]
    · refine ⟨hs.consistent hc, ?_⟩
      rcases hs.stays hc hstays with ⟨hnone, hdeletes⟩ | hstays'
      · exact .inl ⟨hnone, l, hl, hdeletes⟩
      · exact .inr hstays'

/-- In every run a job keeps its history until it is deleted: its identity, its ledger, which only
grows, and, but for a retry after a failure, the state it ended in. -/
theorem reachable_history {es : List (Script V × ℤ)} (h : Reachable Keyspace.Fresh (Calls indexes) ks)
    (hjob : ks.jobs.get? id = some job) (hr : Run (Calls indexes) ks es ks') :
    (∃ es₁ es₂ mid, es = es₁ ++ es₂ ∧ Run (Calls indexes) ks es₁ mid ∧
        Run (Calls indexes) mid es₂ ks' ∧ mid.jobs.get? id = none) ∨
      ∃ job', ks'.jobs.get? id = some job' ∧ job.Since job' (ks.attempts id) (ks'.attempts id) := by
  have hstays : Stays id job (ks.attempts id) ks := ⟨job, hjob, .refl job _⟩
  revert hstays
  generalize ks.attempts id = attempts
  have hks := reachable_sound h
  clear h hjob
  induction hr with
  | refl => exact fun hstays => .inr hstays
  | @cons ks mid ks' e es hcall hr ih =>
    intro hstays
    rcases hcall.stays hks hstays with hnone | hstays
    · exact .inl ⟨[e], es, mid, rfl, .single hcall, hr, hnone⟩
    · rcases ih (hcall.sound hks) hstays with ⟨es₁, es₂, gone, rfl, hr₁, hr₂, hnone⟩ | hend
      · exact .inl ⟨e :: es₁, es₂, gone, rfl, .cons hcall hr₁, hr₂, hnone⟩
      · exact .inr hend

end Stays

theorem mailRun_history : ∃ job,
    (Keyspace.empty.runs ⟨true, true⟩ (mailRun.take 1)).jobs.get? "a" = some job ∧
      ((∃ es₁ es₂ mid, mailRun.drop 1 = es₁ ++ es₂ ∧
          Run (Calls ⟨true, true⟩) (Keyspace.empty.runs ⟨true, true⟩ (mailRun.take 1)) es₁ mid ∧
          Run (Calls ⟨true, true⟩) mid es₂ (Keyspace.empty.runs ⟨true, true⟩ mailRun) ∧
          mid.jobs.get? "a" = none) ∨
        ∃ job', (Keyspace.empty.runs ⟨true, true⟩ mailRun).jobs.get? "a" = some job' ∧
          job.Since job' ((Keyspace.empty.runs ⟨true, true⟩ (mailRun.take 1)).attempts "a")
            ((Keyspace.empty.runs ⟨true, true⟩ mailRun).attempts "a")) := by
  have hfits : ∀ n, ∀ e ∈ mailRun.take n, e.1.Fits ⟨true, true⟩ := fun n e he =>
    fits_mailRun e (List.mem_of_mem_take he)
  have hfirst : Reachable Keyspace.Fresh (Calls ⟨true, true⟩)
      (Keyspace.empty.runs ⟨true, true⟩ (mailRun.take 1)) := reachable_runs (hfits 1) (by decide)
  exact ⟨_, rfl, reachable_history hfirst rfl
    (runs_calls (fun e he => fits_mailRun e (List.mem_of_mem_drop he)) (by decide))⟩

end EffectMq.Redis
