import EffectMq.RedisJobStore.Claims

/-! # Lock tokens of the Redis driver

A claim's token opens one lock, and the lock is gone for good once the job moved on: with fresh tokens
no claim is settled twice, and a call under a lost lock changes nothing.
-/

namespace EffectMq.Redis
set_option autoImplicit false
set_option maxHeartbeats 250000

open Transition

variable {V : Type} {indexes : IndexConfig}

/-! ## Leases -/

/-- The keyspace, and the tokens of the claims so far. -/
structure Leases (V : Type) where
  ks : Keyspace V
  used : List String

def Leases.Start (s : Leases V) : Prop := s = ⟨Keyspace.empty, []⟩

def Script.tokens : Script V → List String
  | .claim options => [options.token]
  | _ => []

/-- Every claim presents a token of its own. -/
inductive LeaseStep (indexes : IndexConfig) : Leases V → Script V × ℤ → Leases V → Prop
  | call {s : Leases V} {script : Script V} {now : ℤ} {ks' : Keyspace V}
      (hcall : Calls indexes s.ks (script, now) ks') (hfresh : ∀ token ∈ script.tokens, token ∉ s.used) :
      LeaseStep indexes s (script, now) ⟨ks', script.tokens ++ s.used⟩

/-! ## Where tokens come from -/

theorem Change.keeps_token {job : JobHash V} (c : Change V) (h : (c.apply job).state = .active) :
    (∃ options now, c = .claim options now) ∨
      job.state = .active ∧ (c.apply job).lockToken = job.lockToken := by
  cases c with
  | claim options now => exact .inl ⟨options, now, rfl⟩
  | extend | requestCancel | count | settle | replace => exact .inr ⟨h, rfl⟩
  | requeue =>
    simp only [Change.apply] at h
    split at h <;> cases h
  | finish e now => cases e <;> cases h
  | _ => cases h

/-- Only a claim opens a lock. -/
theorem Step.holds {ks ks' : Keyspace V} {l : Label V} (hs : Step indexes ks l ks')
    (hl : ∀ id options now, l ≠ .change id (.claim options now)) {id : JobId} {token : String}
    (h : Holds ks' id token) : Holds ks id token := by
  obtain ⟨job', hjob', hactive, htoken⟩ := h
  cases hs with
  | quiet hq _ =>
    rw [hq.jobs] at hjob'
    exact ⟨job', hjob', hactive, htoken⟩
  | insert request key now hnone hjob hseq hw ha =>
    rename_i id'
    by_cases hid : id = id'
    · subst hid
      obtain rfl := Option.some.inj (hjob.symm.trans hjob')
      simp only [jobHash] at hactive
      split at hactive <;> cases hactive
    · rw [hw.others id hid] at hjob'
      exact ⟨job', hjob', hactive, htoken⟩
  | change c hjob hc hm =>
    rename_i id' job
    rw [hm.jobs] at hjob'
    by_cases hid : id = id'
    · subst hid
      rw [if_pos rfl] at hjob'
      obtain rfl := Option.some.inj hjob'
      rcases c.keeps_token hactive with ⟨options, now, rfl⟩ | ⟨hstate, hkept⟩
      · exact absurd rfl (hl id options now)
      · exact ⟨job, hjob, hstate, hkept.symm.trans htoken⟩
    · rw [if_neg hid] at hjob'
      exact ⟨job', hjob', hactive, htoken⟩
  | remove hjob hidle hnone hw ha | prune hjob hterminal hnone hw ha =>
    rename_i id' job
    by_cases hid : id = id'
    · subst hid
      rw [hnone] at hjob'
      cases hjob'
    · rw [hw.others id hid] at hjob'
      exact ⟨job', hjob', hactive, htoken⟩

theorem Calls.holds {ks ks' : Keyspace V} {script : Script V} {now : ℤ} (hks : Sound indexes ks)
    (hcall : Calls indexes ks (script, now) ks') (hclaim : script.tokens = []) {id : JobId}
    {token : String} (h : Holds ks' id token) : Holds ks id token := by
  have hkept := (hcall.does hks).preserves (I := fun ks' => ∀ id token, Holds ks' id token →
    Holds ks id token) (fun _ l _ hl hs hI id token h' => hI id token (hs.holds ?_ h'))
    fun _ _ h' => h'
  · exact hkept id token h
  · rintro id' options now' rfl
    cases hl
    cases hclaim

/-- A promotion opens no lock. -/
theorem holds_promoted {ks ks' : Keyspace V} (queue : QueueName) (now : ℤ) {id : JobId}
    (hjobs : ks'.jobs.get? id = (ks.jobs.get? id).map (promoted queue now)) {token : String}
    (h : Holds ks' id token) : Holds ks id token := by
  obtain ⟨job', hjob', hactive, htoken⟩ := h
  rw [hjobs, Option.map_eq_some_iff] at hjob'
  obtain ⟨job, hjob, rfl⟩ := hjob'
  unfold promoted at hactive htoken
  split at hactive
  · cases hactive
  next hdue =>
    rw [if_neg hdue] at htoken
    exact ⟨job, hjob, hactive, htoken⟩

/-- A claim opens at most one, with its token. -/
theorem claim_holds {ks : Keyspace V} (hks : Sound indexes ks) (hnumbered : ks.Numbered)
    (options : ClaimOptions) (now : ℤ) :
    ∃ first, ∀ id token, Holds (claim ks options now).2 id token →
      Holds ks id token ∨ id = first ∧ token = options.token := by
  obtain ⟨hempty, hclaimed⟩ := claim_law hks hnumbered options now
  by_cases hserve : options.queue ∉ ks.paused ∧
      ∃ id job, ks.jobs.get? id = some job ∧ Eligible options now job
  · obtain ⟨hopen, id, job, hjob, heligible⟩ := hserve
    obtain ⟨first, served, hserved, -, -, -, hjobs⟩ := hclaimed hopen id job hjob heligible
    refine ⟨first, fun id token h => ?_⟩
    have hid := hjobs id
    by_cases hfirst : id = first
    · obtain ⟨job', hjob', -, rfl⟩ := h
      rw [if_pos hfirst] at hid
      rw [← Option.some.inj (hid.symm.trans hjob')]
      exact .inr ⟨hfirst, rfl⟩
    · rw [if_neg hfirst] at hid
      exact .inl (holds_promoted options.queue now hid h)
  · have hnone : options.queue ∈ ks.paused ∨
        ∀ id job, ks.jobs.get? id = some job → ¬ Eligible options now job := by
      by_contra hnot
      simp only [not_or, not_forall, not_not] at hnot
      obtain ⟨hopen, id, job, hjob, heligible⟩ := hnot
      exact hserve ⟨hopen, id, job, hjob, heligible⟩
    obtain ⟨_, -, -, hjobs⟩ := hempty hnone
    exact ⟨"", fun id token h => .inl (holds_promoted options.queue now (hjobs id) h)⟩

/-! ## The invariant -/

/-- Every open lock has the token of a claim that was made, and no two jobs have one lock. -/
structure LeaseInv (indexes : IndexConfig) (s : Leases V) : Prop where
  sound : Sound indexes s.ks
  numbered : s.ks.Numbered
  known : ∀ id token, Holds s.ks id token → token ∈ s.used
  single : ∀ id id' token, Holds s.ks id token → Holds s.ks id' token → id = id'

/-- A call opens no lock but, if it is a claim, one under its token. -/
theorem LeaseStep.opens {s t : Leases V} {e : Script V × ℤ} (hs : LeaseStep indexes s e t)
    (h : LeaseInv indexes s) : ∃ first, ∀ id token, Holds t.ks id token →
      Holds s.ks id token ∨ id = first ∧ token ∉ s.used ∧ token ∈ t.used := by
  cases hs with
  | call hcall hfresh =>
    rename_i script now ks'
    by_cases hclaim : script.tokens = []
    · exact ⟨"", fun id token h' => .inl (hcall.holds h.sound hclaim h')⟩
    · cases script with
      | claim options =>
        cases hcall
        obtain ⟨first, hfirst⟩ := claim_holds h.sound h.numbered options now
        refine ⟨first, fun id token h' => ?_⟩
        rcases hfirst id token h' with hheld | ⟨hid, rfl⟩
        · exact .inl hheld
        · exact .inr ⟨hid, hfresh _ List.mem_cons_self, List.mem_cons_self⟩
      | _ => exact absurd rfl hclaim

theorem LeaseStep.used {s t : Leases V} {e : Script V × ℤ} (hs : LeaseStep indexes s e t)
    {token : String} (h : token ∈ s.used) : token ∈ t.used := by
  cases hs
  exact List.mem_append_right _ h

theorem LeaseStep.calls {s t : Leases V} {e : Script V × ℤ} (hs : LeaseStep indexes s e t) :
    Calls indexes s.ks e t.ks := by
  cases hs
  assumption

theorem LeaseStep.inv {s t : Leases V} {e : Script V × ℤ} (hs : LeaseStep indexes s e t)
    (h : LeaseInv indexes s) : LeaseInv indexes t := by
  obtain ⟨first, hopens⟩ := hs.opens h
  refine ⟨hs.calls.sound h.sound, hs.calls.numbered h.sound h.numbered, fun id token hid => ?_,
    fun id id' token hid hid' => ?_⟩
  · rcases hopens id token hid with hheld | ⟨-, -, hused⟩
    · exact hs.used (h.known id token hheld)
    · exact hused
  · rcases hopens id token hid with hheld | ⟨rfl, hfresh, -⟩
    · rcases hopens id' token hid' with hheld' | ⟨-, hfresh, -⟩
      · exact h.single id id' token hheld hheld'
      · exact absurd (h.known id token hheld) hfresh
    · rcases hopens id' token hid' with hheld' | ⟨rfl, -, -⟩
      · exact absurd (h.known id' token hheld') hfresh
      · rfl

theorem reachable_leaseInv {s : Leases V} (h : Reachable Leases.Start (LeaseStep indexes) s) :
    LeaseInv indexes s := by
  refine h.induct (I := LeaseInv indexes) ?_ fun s e t hs => hs.inv
  rintro s rfl
  have hnone : ∀ id token, ¬ Holds (Keyspace.empty : Keyspace V) id token := by
    rintro id token ⟨job, hjob, -⟩
    cases hjob
  refine ⟨sound_empty, fun id id' job job' hjob => ?_, fun id token h => (hnone id token h).elim,
    fun id id' token h => (hnone id token h).elim⟩
  cases hjob

/-! ## Settling -/

/-- The call presents the job's lock, is answered without an error and ends the run: an ack, a
release, or the last chunk of a fan-out. -/
inductive SettlesLease (ks : Keyspace V) (now : ℤ) (jobId : JobId) (token : String) : Script V → Prop
  | ack (outcome : Settled V) (h : ∀ e ks', ack ks jobId token outcome now ≠ .ok (.error e, ks')) :
      SettlesLease ks now jobId token (.ack jobId token outcome)
  | release (h : ∀ e ks', release ks jobId token now ≠ .ok (.error e, ks')) :
      SettlesLease ks now jobId token (.release jobId token)
  | fanOut (chunk : FanOutChunk V) (hfinal : chunk.final = true)
      (h : ∀ e ks', fanOut ks jobId token chunk now ≠ .ok (.error e, ks')) :
      SettlesLease ks now jobId token (.fanOut jobId token chunk)

section Settle

variable {ks : Keyspace V} {now : ℤ} {jobId : JobId} {token : String}

/-- The job moved on, so the lock is gone. -/
theorem Moved.unlocks {P : Label V → Prop} {α : Type} {r : Except (Keyspace V) (α × Keyspace V)}
    (h : Moved indexes P ks jobId Prod.snd r) : ¬ Holds (leaves r) jobId token := by
  have hover := h.over.leaves
  rintro ⟨job, hjob, hactive, -⟩
  exact hover job hjob hactive

/-- A settle found the lock and took it. -/
theorem SettlesLease.takes (hks : Sound indexes ks) {script : Script V}
    (h : SettlesLease ks now jobId token script) :
    Holds ks jobId token ∧ ¬ Holds (ks.run indexes now script) jobId token := by
  cases h with
  | ack outcome h =>
    rcases ack_fenced now hks.consistent token outcome with ⟨e, hr⟩ | ⟨hheld, -, hmoved⟩
    · exact absurd hr (h e ks)
    · exact ⟨hheld, hmoved.unlocks⟩
  | release h =>
    rcases release_fenced now hks.consistent token with ⟨e, hr⟩ | ⟨hheld, -, hmoved⟩
    · exact absurd hr (h e ks)
    · exact ⟨hheld, hmoved.unlocks⟩
  | fanOut chunk hfinal h =>
    rcases fanOut_staged jobId now hks.consistent token chunk with
      ⟨e, hr⟩ | ⟨hheld, ks₁, -, ⟨hopen, -⟩ | ⟨-, -, hmoved⟩⟩
    · exact absurd hr (h e ks)
    · rw [hfinal] at hopen
      cases hopen
    · exact ⟨hheld, hmoved.unlocks⟩

/-! ## A lock that is gone is refused -/

/-- Every call under the lock is answered with an error and changes nothing, and every heartbeat
reports the job as lost. -/
structure Refused (ks : Keyspace V) (jobId : JobId) (token : String) : Prop where
  ack : ∀ now outcome, ∃ e, ack ks jobId token outcome now = .ok (.error e, ks)
  release : ∀ now, ∃ e, release ks jobId token now = .ok (.error e, ks)
  fanOut : ∀ now chunk, ∃ e, fanOut ks jobId token chunk now = .ok (.error e, ks)
  extendLocks : ∀ now durationMs locks, ⟨jobId, token⟩ ∈ locks →
    jobId ∈ (extendLocks ks locks durationMs now).1.lost

/-- A heartbeat neither opens nor closes a lock. -/
theorem extendLock_holds (now durationMs : ℤ) (acc : ExtendReply × Keyspace V) (lock : Lock)
    (h : ¬ Holds acc.2 jobId token) : ¬ Holds (extendLock now durationMs acc lock).2 jobId token := by
  obtain ⟨reply, ks⟩ := acc
  unfold extendLock
  dsimp only
  split
  · exact h
  · split
    · exact h
    · split
      · exact h
      · rintro ⟨job', hjob', hactive, htoken⟩
        simp only [addActive, hset] at hjob'
        rw [JsMap.get?_modify] at hjob'
        split at hjob'
        next hid =>
          obtain ⟨job, hjob, rfl⟩ := Option.map_eq_some_iff.mp hjob'
          subst hid
          exact h ⟨job, hjob, hactive, htoken⟩
        next hid => exact h ⟨job', hjob', hactive, htoken⟩

/-- A job whose lock is gone is lost, and stays on the list. -/
theorem extendLock_lost (now durationMs : ℤ) (acc : ExtendReply × Keyspace V) (lock : Lock)
    (h : ¬ Holds acc.2 jobId token) (hm : jobId ∈ acc.1.lost ∨ lock = ⟨jobId, token⟩) :
    jobId ∈ (extendLock now durationMs acc lock).1.lost := by
  obtain ⟨reply, ks⟩ := acc
  rcases hm with hm | rfl
  · unfold extendLock
    dsimp only
    split
    · exact List.mem_append_left _ hm
    · split
      · exact List.mem_append_left _ hm
      · split
        · exact hm
        · exact hm
  · unfold extendLock
    dsimp only
    split
    · exact List.mem_append_right _ List.mem_cons_self
    · rename_i job hjob
      split
      · exact List.mem_append_right _ List.mem_cons_self
      · rename_i hheld
        simp only [not_or, not_not] at hheld
        exact absurd ⟨job, hjob, hheld⟩ h

theorem extendLocks_lost (now durationMs : ℤ) (locks : List Lock) (acc : ExtendReply × Keyspace V)
    (h : ¬ Holds acc.2 jobId token) (hm : jobId ∈ acc.1.lost ∨ ⟨jobId, token⟩ ∈ locks) :
    jobId ∈ (locks.foldl (extendLock now durationMs) acc).1.lost := by
  induction locks generalizing acc with
  | nil => exact hm.resolve_right List.not_mem_nil
  | cons lock locks ih =>
    refine ih _ (extendLock_holds now durationMs acc lock h) ?_
    rcases hm with hm | hm
    · exact .inl (extendLock_lost now durationMs acc lock h (.inl hm))
    · rcases List.mem_cons.mp hm with heq | hm
      · exact .inl (extendLock_lost now durationMs acc lock h (.inr heq.symm))
      · exact .inr hm

theorem refused_of_not_holds (hks : Sound indexes ks) (h : ¬ Holds ks jobId token) :
    Refused ks jobId token := by
  refine ⟨fun now outcome => ?_, fun now => ?_, fun now chunk => ?_, fun now durationMs locks hm => ?_⟩
  · rcases ack_fenced now hks.consistent token outcome with hr | ⟨hheld, -, -⟩
    · exact hr
    · exact absurd hheld h
  · rcases release_fenced now hks.consistent token with hr | ⟨hheld, -, -⟩
    · exact hr
    · exact absurd hheld h
  · rcases fanOut_staged jobId now hks.consistent token chunk with hr | ⟨hheld, -⟩
    · exact hr
    · exact absurd hheld h
  · exact extendLocks_lost now durationMs locks (⟨[], []⟩, ks) h (.inr hm)

end Settle

/-! ## Runs -/

/-- The claim under this token was made and its lock is on no job. -/
def Spent (s : Leases V) (token : String) : Prop :=
  token ∈ s.used ∧ ∀ jobId, ¬ Holds s.ks jobId token

theorem Spent.step {s t : Leases V} {e : Script V × ℤ} (hs : LeaseStep indexes s e t)
    (hI : LeaseInv indexes s) {token : String} (h : Spent s token) : Spent t token := by
  obtain ⟨first, hopens⟩ := hs.opens hI
  refine ⟨hs.used h.1, fun jobId hheld => ?_⟩
  rcases hopens jobId token hheld with hheld | ⟨-, hfresh, -⟩
  · exact h.2 jobId hheld
  · exact hfresh h.1

theorem Spent.of_settles {s t : Leases V} {script : Script V} {now : ℤ}
    (hs : LeaseStep indexes s (script, now) t) (hI : LeaseInv indexes s) {jobId : JobId}
    {token : String} (h : SettlesLease s.ks now jobId token script) : Spent t token := by
  obtain ⟨hheld, hgone⟩ := h.takes hI.sound
  have hused := hI.known jobId token hheld
  obtain ⟨first, hopens⟩ := hs.opens hI
  refine ⟨hs.used hused, fun id hid => ?_⟩
  rcases hopens id token hid with hheld' | ⟨-, hfresh, -⟩
  · obtain rfl := hI.single id jobId token hheld' hheld
    rw [hs.calls.eq] at hid
    exact hgone hid
  · exact hfresh hused

/-- With a token of its own for every claim: a job is settled under one token only, a claim is settled
at most once, and once its lock is off the job, however it came off, the claim's calls change nothing
ever after. -/
structure OneLease (V : Type) (indexes : IndexConfig) (token : String) : Prop where
  unique : ∀ s : Leases V, Reachable Leases.Start (LeaseStep indexes) s →
    ∀ jobId token' now now' script script', SettlesLease s.ks now jobId token script →
      SettlesLease s.ks now' jobId token' script' → token = token'
  once : AtMostOnce Leases.Start (LeaseStep (V := V) indexes) fun s e _ =>
    ∃ jobId, SettlesLease s.ks e.2 jobId token e.1
  refused : ∀ (s t : Leases V) es, Reachable Leases.Start (LeaseStep indexes) s → Spent s token →
    Run (LeaseStep indexes) s es t → ∀ jobId, Refused t.ks jobId token

theorem one_lease (indexes : IndexConfig) (token : String) : OneLease V indexes token where
  unique := by
    intro s hs jobId token' now now' script script' h h'
    have hI := reachable_leaseInv hs
    obtain ⟨⟨job, hjob, -, ht⟩, -⟩ := h.takes hI.sound
    obtain ⟨⟨job', hjob', -, ht'⟩, -⟩ := h'.takes hI.sound
    obtain rfl := Option.some.inj (hjob.symm.trans hjob')
    exact ht.symm.trans ht'
  once := by
    refine .of_done (I := LeaseInv indexes) (D := fun s => Spent s token)
      (fun s hs => reachable_leaseInv hs) ?_ (fun s e t hI hs hd => hd.step hs hI) ?_
    · rintro s ⟨script, now⟩ t hI hs ⟨jobId, hsettles⟩
      exact .of_settles hs hI hsettles
    · rintro s ⟨script, now⟩ t hI _ hd ⟨jobId, hsettles⟩
      exact hd.2 jobId (hsettles.takes hI.sound).1
  refused := by
    intro s t es hs hspent hr jobId
    have hkept := hr.preserves (I := fun s => LeaseInv indexes s ∧ Spent s token)
      (fun s e t hstep ⟨hI, hd⟩ => ⟨hstep.inv hI, hd.step hstep hI⟩) ⟨reachable_leaseInv hs, hspent⟩
    exact refused_of_not_holds hkept.1.sound (hkept.2.2 jobId)

end EffectMq.Redis
