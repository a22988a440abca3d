import EffectMq.Library.Codes
import EffectMq.Library.Indexes
import EffectMq.RedisJobStore.Retention

/-! # What the indexes of the Redis driver list

Every job hash is listed in several sorted sets and counted in one counter, each maintained by hand in
every script. `JobHash.listed` says where a hash belongs and with which score, and `Consistent` that
the indexes and counters are exactly that. `Writes` is what a script does when it rewrites, inserts or
deletes one hash with all that lists it.
-/

namespace EffectMq.Redis
set_option autoImplicit false
set_option maxHeartbeats 250000

open Indexes

variable {V : Type}

/-! ## Members of the waiting sets -/

theorem toList_pad16 (seq : ℕ) :
    (pad16 seq).toList = List.replicate (16 - (Nat.repr seq).length) '0' ++ Nat.toDigits 10 seq := by
  rw [pad16, String.toList_append, String.toList_ofList, Nat.toList_repr]

theorem toList_waitingMember (seq : ℕ) (id : JobId) :
    (waitingMember seq id).toList = (pad16 seq).toList ++ ':' :: id.toList := by
  simp [waitingMember, String.toList_append]

theorem isDigit_of_mem_pad16 {seq : ℕ} {c : Char} (h : c ∈ (pad16 seq).toList) :
    c.isDigit = true := by
  rw [toList_pad16, List.mem_append] at h
  rcases h with h | h
  · rw [List.eq_of_mem_replicate h]
    rfl
  · exact Nat.isDigit_of_mem_toDigits (by decide) (by decide) h

/-- The digits read back, zeros in front or not. -/
theorem ofDigitChars_pad16 (seq : ℕ) : Nat.ofDigitChars 10 (pad16 seq).toList 0 = seq := by
  rw [toList_pad16, Nat.ofDigitChars_append, Nat.ofDigitChars_replicate_zero, Nat.mul_zero,
    Nat.ofDigitChars_ten_toDigits]

/-- A member tells its number and its job. -/
theorem waitingMember_inj {seq seq' : ℕ} {id id' : JobId}
    (h : waitingMember seq id = waitingMember seq' id') : seq = seq' ∧ id = id' := by
  have hcolon : ∀ seq, ':' ∉ (pad16 seq).toList := fun seq hc =>
    absurd (isDigit_of_mem_pad16 hc) (by decide)
  have hlist := congrArg String.toList h
  rw [toList_waitingMember, toList_waitingMember] at hlist
  obtain ⟨hpad, hid⟩ := Codes.cut_separator (hcolon seq) (hcolon seq') hlist
  refine ⟨?_, String.toList_inj.mp hid⟩
  rw [← ofDigitChars_pad16 seq, hpad, ofDigitChars_pad16]

/-- The sixteen digits hold the number. -/
theorem length_pad16 {seq : ℕ} (h : seq < 10 ^ 16) : (pad16 seq).toList.length = 16 := by
  have hdigits : (Nat.toDigits 10 seq).length ≤ 16 :=
    (Nat.length_toDigits_le_iff (by decide) (by decide)).mpr h
  have hrepr : (Nat.repr seq).length = (Nat.toDigits 10 seq).length := by
    rw [← String.length_toList, Nat.toList_repr]
  rw [toList_pad16, List.length_append, List.length_replicate, hrepr]
  omega

theorem waitingId_waitingMember {seq : ℕ} (h : seq < 10 ^ 16) (id : JobId) :
    waitingId (waitingMember seq id) = id := by
  have hsplit : (waitingMember seq id).toList = ((pad16 seq).toList ++ [':']) ++ id.toList := by
    rw [toList_waitingMember, List.append_assoc]
    rfl
  have hlength : ((pad16 seq).toList ++ [':']).length = 17 := by
    rw [List.length_append, length_pad16 h]
    rfl
  rw [waitingId, hsplit, List.drop_left' hlength, String.ofList_toList]

/-! ## Where a hash belongs -/

inductive IndexKey
  | waiting (queue : QueueName)
  | delayed (queue : QueueName)
  | active
  | all
  | byname (name : String)
  | byqueue (queue : QueueName)
  | finished (state : JobState)
  | terminal (name : String) (state : JobState)
  deriving DecidableEq

def Keyspace.index (ks : Keyspace V) : IndexKey → ZSet ℤ String
  | .waiting queue => ks.waiting queue
  | .delayed queue => ks.delayed queue
  | .active => ks.active
  | .all => ks.all
  | .byname name => ks.byname name
  | .byqueue queue => ks.byqueue queue
  | .finished state => ks.finished state
  | .terminal name state => ks.terminal name state

/-- The member and score of a hash in one sorted set, if it belongs there. The two list indexes are
optional. -/
def JobHash.listed (indexes : IndexConfig) (id : JobId) (job : JobHash V) :
    IndexKey → Option (String × ℤ)
  | .waiting queue =>
    if job.state = .waiting ∧ queue = job.queue then some (waitingMember job.seq id, -job.priority)
    else none
  | .delayed queue =>
    if job.state = .delayed ∧ queue = job.queue then some (id, job.runAt) else none
  | .active => if job.state = .active then job.lockExpiresAt.map fun t => (id, t) else none
  | .all => some (id, job.enqueuedAt)
  | .byname name => if indexes.name ∧ name = job.name then some (id, job.enqueuedAt) else none
  | .byqueue queue => if indexes.queue ∧ queue = job.queue then some (id, job.enqueuedAt) else none
  | .finished state =>
    if state = job.state ∧ job.state.isTerminal then job.finishedAt.map fun t => (id, t) else none
  | .terminal name state =>
    if name = job.name ∧ state = job.state ∧ job.state.isTerminal then
      job.finishedAt.map fun t => (id, t)
    else none

/-- The member that stands for a job, wherever it is listed. -/
def memberOf (id : JobId) (seq : ℕ) : IndexKey → String
  | .waiting _ => waitingMember seq id
  | _ => id

variable {indexes : IndexConfig}

theorem JobHash.listed_member {id : JobId} {job : JobHash V} {key : IndexKey} {e : String × ℤ}
    (h : job.listed indexes id key = some e) : e.1 = memberOf id job.seq key := by
  cases key <;> simp only [JobHash.listed] at h
  case all =>
    rw [← Option.some.inj h]
    rfl
  case active | finished | terminal =>
    split at h
    · obtain ⟨t, -, rfl⟩ := Option.map_eq_some_iff.mp h
      rfl
    · cases h
  all_goals
    split at h
    · rw [← Option.some.inj h]
      rfl
    · cases h

theorem memberOf_inj {key : IndexKey} {id id' : JobId} {seq seq' : ℕ}
    (h : memberOf id seq key = memberOf id' seq' key) : id = id' := by
  cases key
  case waiting => exact (waitingMember_inj h).2
  all_goals exact h

theorem listed_owned : Owned (JobHash.listed (V := V) indexes) := by
  intro key id job id' job' a s s' h h'
  have ha := JobHash.listed_member h
  have ha' := JobHash.listed_member h'
  exact memberOf_inj (ha.symm.trans ha')

/-- The sorted sets a job moves between; the others list it as long as it exists. -/
def IndexKey.isHome : IndexKey → Bool
  | .all | .byname _ | .byqueue _ => false
  | _ => true

section Home

variable {id : JobId} {job : JobHash V} {key : IndexKey} (hkey : key.isHome = true)

include hkey

theorem listed_waiting (h : job.state = .waiting) : job.listed indexes id key =
    if key = .waiting job.queue then some (waitingMember job.seq id, -job.priority) else none := by
  cases key <;> cases hkey <;> simp [JobHash.listed, h, JobState.isTerminal]

theorem listed_delayed (h : job.state = .delayed) : job.listed indexes id key =
    if key = .delayed job.queue then some (id, job.runAt) else none := by
  cases key <;> cases hkey <;> simp [JobHash.listed, h, JobState.isTerminal]

theorem listed_active (h : job.state = .active) {t : ℤ} (ht : job.lockExpiresAt = some t) :
    job.listed indexes id key = if key = .active then some (id, t) else none := by
  cases key <;> cases hkey <;> simp [JobHash.listed, h, ht, JobState.isTerminal]

theorem listed_parked (h : job.state = .waitingChildren) : job.listed indexes id key = none := by
  cases key <;> cases hkey <;> simp [JobHash.listed, h, JobState.isTerminal]

theorem listed_terminal (h : job.state.isTerminal = true) {t : ℤ} (ht : job.finishedAt = some t) :
    job.listed indexes id key =
      if key = .finished job.state ∨ key = .terminal job.name job.state then some (id, t)
      else none := by
  have hnot : job.state ≠ .waiting ∧ job.state ≠ .delayed ∧ job.state ≠ .active := by
    refine ⟨?_, ?_, ?_⟩ <;> intro hs <;> rw [hs] at h <;> cases h
  cases key <;> cases hkey <;> simp [JobHash.listed, h, ht, hnot]

end Home

def inState (queue : QueueName) (state : JobState) (job : JobHash V) : Bool :=
  decide (job.queue = queue ∧ job.state = state)

/-- The times a state is listed by are there. -/
structure JobHash.Stamped (job : JobHash V) : Prop where
  locked : job.state = .active → job.lockExpiresAt.isSome
  finished : job.state.isTerminal = true → job.finishedAt.isSome

/-- A hash that may be stored under an id. -/
structure JobHash.Sound (id : JobId) (seq : ℕ) (job : JobHash V) : Prop where
  keyed : job.id = id
  stamped : job.Stamped
  seq : job.seq ≤ seq

/-- Every index and every counter is what the hashes say. -/
structure Consistent (indexes : IndexConfig) (ks : Keyspace V) : Prop where
  lists : Lists (JobHash.listed indexes) ks.jobs ks.index
  counts : ∀ queue state, ks.counts queue state = (ks.jobs.values.countP (inState queue state) : ℕ)
  sound : ∀ id job, ks.jobs.get? id = some job → job.Sound id ks.seq

theorem consistent_empty : Consistent indexes (Keyspace.empty : Keyspace V) where
  lists := by
    have hindex : (Keyspace.empty : Keyspace V).index = fun _ => ∅ := by
      funext key
      cases key <;> rfl
    rw [hindex]
    exact lists_empty
  counts _ _ := rfl
  sound id job h := by
    rw [Keyspace.empty, JsMap.get?_emptyCollection] at h
    cases h

/-- Every member stands for a job that belongs there. -/
theorem Consistent.member {ks : Keyspace V} (h : Consistent indexes ks) {key : IndexKey} {a : String}
    {s : ℤ} (hs : (ks.index key).score? a = some s) :
    ∃ id job, ks.jobs.get? id = some job ∧ job.listed indexes id key = some (a, s) := by
  obtain ⟨id, hid⟩ := (h.lists key a s).mp hs
  obtain ⟨job, hjob, hlisted⟩ := Option.bind_eq_some_iff.mp hid
  exact ⟨id, job, hjob, hlisted⟩

/-- And every job that belongs there is a member. -/
theorem Consistent.score? {ks : Keyspace V} (h : Consistent indexes ks) {id : JobId} {job : JobHash V}
    (hjob : ks.jobs.get? id = some job) (key : IndexKey) {a : String} {s : ℤ}
    (hlisted : job.listed indexes id key = some (a, s)) : (ks.index key).score? a = some s := by
  refine (h.lists key a s).mpr ⟨id, ?_⟩
  rw [hjob]
  exact hlisted

section Members

variable {ks : Keyspace V} (h : Consistent indexes ks)

include h

theorem Consistent.of_waiting {queue : QueueName} {member : String} {s : ℤ}
    (hs : (ks.waiting queue).score? member = some s) :
    ∃ id job, ks.jobs.get? id = some job ∧ job.state = .waiting ∧ job.queue = queue ∧
      member = waitingMember job.seq id ∧ s = -job.priority := by
  obtain ⟨id, job, hjob, hlisted⟩ := h.member (show (ks.index (.waiting queue)).score? member = some s from hs)
  simp only [JobHash.listed] at hlisted
  split at hlisted
  next hcond =>
    simp only [Option.some.injEq, Prod.mk.injEq] at hlisted
    exact ⟨id, job, hjob, hcond.1, hcond.2.symm, hlisted.1.symm, hlisted.2.symm⟩
  next => cases hlisted

theorem Consistent.of_delayed {queue : QueueName} {id : JobId} {s : ℤ}
    (hs : (ks.delayed queue).score? id = some s) :
    ∃ job, ks.jobs.get? id = some job ∧ job.state = .delayed ∧ job.queue = queue ∧ s = job.runAt := by
  obtain ⟨id', job, hjob, hlisted⟩ := h.member (show (ks.index (.delayed queue)).score? id = some s from hs)
  simp only [JobHash.listed] at hlisted
  split at hlisted
  next hcond =>
    simp only [Option.some.injEq, Prod.mk.injEq] at hlisted
    obtain ⟨rfl, rfl⟩ := hlisted
    exact ⟨job, hjob, hcond.1, hcond.2.symm, rfl⟩
  next => cases hlisted

theorem Consistent.of_finished {state : JobState} {id : JobId} {s : ℤ}
    (hs : (ks.finished state).score? id = some s) :
    ∃ job, ks.jobs.get? id = some job ∧ job.state = state ∧ state.isTerminal = true ∧
      job.finishedAt = some s := by
  obtain ⟨id', job, hjob, hlisted⟩ := h.member (show (ks.index (.finished state)).score? id = some s from hs)
  simp only [JobHash.listed] at hlisted
  split at hlisted
  next hcond =>
    obtain ⟨t, ht, hpair⟩ := Option.map_eq_some_iff.mp hlisted
    obtain ⟨rfl, rfl⟩ := Prod.mk.inj hpair
    exact ⟨job, hjob, hcond.1.symm, hcond.1 ▸ hcond.2, ht⟩
  next => cases hlisted

end Members

/-! ## Writing one hash -/

/-- A script rewrites, inserts or deletes the hash of one job, with all that lists and counts it. -/
structure Writes (indexes : IndexConfig) (ks ks' : Keyspace V) (id : JobId) : Prop where
  others : ∀ id', id' ≠ id → ks'.jobs.get? id' = ks.jobs.get? id'
  index : ∀ key, ks'.index key = (ks.index key).swap
    (entryOf (JobHash.listed indexes) id (ks.jobs.get? id) key)
    (entryOf (JobHash.listed indexes) id (ks'.jobs.get? id) key)
  counts : ∀ queue state,
    ks'.counts queue state + (JsMap.weight (inState queue state) (ks.jobs.get? id) : ℕ) =
      ks.counts queue state + (JsMap.weight (inState queue state) (ks'.jobs.get? id) : ℕ)
  seq : ks.seq ≤ ks'.seq
  sound : ∀ job, ks'.jobs.get? id = some job → job.Sound id ks'.seq

theorem JobHash.Sound.mono {id : JobId} {seq seq' : ℕ} {job : JobHash V} (h : job.Sound id seq)
    (hseq : seq ≤ seq') : job.Sound id seq' :=
  ⟨h.keyed, h.stamped, h.seq.trans hseq⟩

theorem Consistent.write {ks ks' : Keyspace V} {id : JobId} (h : Consistent indexes ks)
    (hw : Writes indexes ks ks' id) : Consistent indexes ks' where
  lists := h.lists.write listed_owned hw.others hw.index
  counts queue state := by
    have hcount := JsMap.countP_values_write hw.others (inState queue state)
    have hcounts := hw.counts queue state
    rw [h.counts queue state] at hcounts
    omega
  sound id' job hjob := by
    by_cases hid : id' = id
    · subst hid
      exact hw.sound job hjob
    · rw [hw.others id' hid] at hjob
      exact (h.sound id' job hjob).mono hw.seq

/-- A script leaves the hashes, indexes and counters alone. -/
structure Quiet (ks ks' : Keyspace V) : Prop where
  jobs : ks'.jobs = ks.jobs
  index : ks'.index = ks.index
  counts : ks'.counts = ks.counts
  seq : ks.seq ≤ ks'.seq

theorem Consistent.quiet {ks ks' : Keyspace V} (h : Consistent indexes ks)
    (hq : Quiet ks ks') : Consistent indexes ks' where
  lists := by
    rw [hq.jobs, hq.index]
    exact h.lists
  counts := by
    rw [hq.jobs, hq.counts]
    exact h.counts
  sound id job hjob := by
    rw [hq.jobs] at hjob
    exact (h.sound id job hjob).mono hq.seq

end EffectMq.Redis
