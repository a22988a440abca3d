import Mathlib.Data.List.Count
import EffectMq.DrizzleJobStore.Retention
import EffectMq.Library.Codes
import EffectMq.MemoryJobStore.Retention
import EffectMq.RedisJobStore.Retention

/-! # The drivers agree on retention

Each driver prunes a group of terminal jobs by the keep rule, as long as the policy is one that all of
them can read. The in-memory driver reads every policy. Redis loses numbers that are not finite on the
way through JSON. Postgres reads a count as a `LIMIT`, which rounds it where the others take its floor
and fails the transaction if it is negative, and an age as a timestamp.

That only portable policies agree is read off groups of one job, and for the rounding off a group of
one job more than the floor.
-/

namespace EffectMq
set_option autoImplicit false
set_option maxHeartbeats 250000

/-- Whatever the group, no driver fails and each deletes the jobs the rule dooms and no other. -/
def KeepAgrees (name : String) (state : TerminalState) (keep : KeepPolicy) (now : ℤ) : Prop :=
  ∀ (V : Type) (g : Group) (c : Memory.Core V) (job : Memory.MemJob V) (ks : Redis.Keyspace V)
    (t : Drizzle.Tables V),
    Memory.HoldsGroup c name state g → Redis.HoldsGroup ks name state g → Drizzle.HoldsGroup t name state g →
    job.name = name → job.state = state.toJobState → job.keep = some keep →
    Pruned c.jobs.get? (c.applyKeep job now).jobs.get? (g.Doomed (keep.governing state) now) ∧
    (∃ ks', Redis.applyKeep ks name state (some keep) now = .ok ks' ∧
      Pruned ks.jobs.get? ks'.jobs.get? (g.Doomed (keep.governing state) now)) ∧
    ∃ t', Drizzle.applyKeep t name state (some keep) now = .ok t' ∧
      Pruned t.jobs.get? t'.jobs.get? (g.Doomed (keep.governing state) now)

theorem KeepStatePolicy.Portable.readable {policy : KeepStatePolicy} {now : ℤ}
    (h : policy.Portable now) : Redis.readable policy := by
  constructor
  · intro hinf
    obtain ⟨q, hq, _⟩ := h.1 _ hinf
    cases hq
  · intro age hage
    obtain ⟨q, hq, _⟩ := h.2 age hage
    exact ⟨q, hq⟩

/-! ## A group of jobs that end together -/

/-- Values under the decimals up to `n`. -/
def numbered {W : Type} (n : ℕ) (f : ℕ → W) : JsMap JobId W where
  entries := (List.range n).map fun i => (i.repr, f i)
  nodup := by
    rw [List.map_map]
    exact List.nodup_range.map fun _ _ h => Nat.repr_injective h

theorem numbered_get? {W : Type} {n : ℕ} {f : ℕ → W} {id : JobId} {w : W} :
    (numbered n f).get? id = some w ↔ ∃ i < n, i.repr = id ∧ f i = w := by
  rw [JsMap.get?_eq_some, numbered, List.mem_map]
  simp only [List.mem_range, Prod.mk.injEq]

theorem numbered_values {W : Type} (n : ℕ) (f : ℕ → W) :
    (numbered n f).values = (List.range n).map f := by
  rw [JsMap.values, numbered, List.map_map]
  rfl

section Crowd

variable (name : String) (state : TerminalState) (finishedAt : ℤ) (n : ℕ)

def crowdPeer (i : ℕ) : Peer := ⟨i.repr, finishedAt, i, false⟩

def crowdGroup : Group where
  peers := (List.range n).map (crowdPeer finishedAt)
  ids := by
    rw [List.map_map]
    exact List.nodup_range.map fun _ _ h => Nat.repr_injective h
  seqs := by
    rw [List.map_map]
    exact List.nodup_range.map fun _ _ h => h

def crowdRecord (i : ℕ) : JobRecord Unit where
  id := i.repr
  name := name
  queue := "q"
  payload := ()
  metadata := []
  state := state.toJobState
  priority := 0
  attemptsMax := 1
  attemptsMade := 1
  stalledCount := 0
  backoff := none
  keep := none
  timeoutMs := none
  cancelRequested := false
  dedupeKey := none
  trace := none
  parent := none
  flow := none
  runAt := finishedAt
  enqueuedAt := finishedAt
  processedAt := some finishedAt
  finishedAt := some finishedAt
  exit := none
  failedReason := none

def crowdJob (i : ℕ) : Memory.MemJob Unit :=
  { crowdRecord name state finishedAt i with
    attempts := [], seq := i, lockToken := none, lockExpiresAt := none }

def crowdHash (i : ℕ) : Redis.JobHash Unit :=
  { crowdRecord name state finishedAt i with
    dedupeKey := "", failedReason := "", lockToken := "", lockExpiresAt := none, seq := i }

def crowdRow (i : ℕ) : Drizzle.JobRow Unit :=
  { crowdRecord name state finishedAt i with seq := i, lockToken := none, lockExpiresAt := none }

def crowdCore : Memory.Core Unit :=
  { Memory.Core.empty with jobs := numbered n (crowdJob name state finishedAt) }

def crowdKeyspace : Redis.Keyspace Unit :=
  { Redis.Keyspace.empty with
    jobs := numbered n (crowdHash name state finishedAt)
    terminal := Redis.upd (fun _ _ => ∅) name
      (Redis.upd (fun _ => ∅) state.toJobState (.ofList (numbered n fun _ => finishedAt).entries)) }

def crowdTables : Drizzle.Tables Unit :=
  { Drizzle.Tables.empty with jobs := numbered n (crowdRow name state finishedAt) }

theorem crowdCore_holds :
    Memory.HoldsGroup (crowdCore name state finishedAt n) name state (crowdGroup finishedAt n) := by
  have hlist : (crowdCore name state finishedAt n).terminalJobs name state =
      (List.range n).map (crowdJob name state finishedAt) := by
    rw [Memory.Core.terminalJobs, crowdCore, numbered_values, List.filter_eq_self]
    simp [crowdJob, crowdRecord]
  refine ⟨?_, ?_, ?_⟩
  · intro id job hjob
    obtain ⟨i, _, rfl, rfl⟩ := numbered_get?.mp hjob
    rfl
  · rw [hlist]
    simp [crowdJob, crowdRecord]
  · rw [hlist, List.map_map]
    exact List.Perm.refl _

theorem crowdKeyspace_holds :
    Redis.HoldsGroup (crowdKeyspace name state finishedAt n) name state (crowdGroup finishedAt n) := by
  have hlist : Redis.terminalJobs (crowdKeyspace name state finishedAt n) name state =
      (List.range n).map (crowdHash name state finishedAt) := by
    rw [Redis.terminalJobs, crowdKeyspace, numbered_values, List.filter_eq_self]
    simp [crowdHash, crowdRecord]
  refine ⟨?_, ?_, ?_, ?_⟩
  · intro id job hjob
    obtain ⟨i, _, rfl, rfl⟩ := numbered_get?.mp hjob
    rfl
  · rw [hlist]
    simp [crowdHash, crowdRecord]
  · rw [hlist, List.map_map]
    exact List.Perm.refl _
  · intro id t
    simp only [crowdKeyspace, Redis.upd_apply, if_true]
    rw [ZSet.score?_ofList (JsMap.nodup _), ← JsMap.get?_eq_some, numbered_get?]
    constructor
    · rintro ⟨i, hi, hid, rfl⟩
      exact ⟨_, numbered_get?.mpr ⟨i, hi, hid, rfl⟩, rfl, rfl, rfl⟩
    · rintro ⟨job, hjob, _, _, hfinished⟩
      obtain ⟨i, hi, hid, rfl⟩ := numbered_get?.mp hjob
      exact ⟨i, hi, hid, Option.some.inj hfinished⟩

theorem crowdTables_holds :
    Drizzle.HoldsGroup (crowdTables name state finishedAt n) name state (crowdGroup finishedAt n) := by
  have hlist : Drizzle.terminalJobs (crowdTables name state finishedAt n) name state =
      (List.range n).map (crowdRow name state finishedAt) := by
    rw [Drizzle.terminalJobs, crowdTables, numbered_values, List.filter_eq_self]
    simp [crowdRow, crowdRecord, Drizzle.inGroup]
  refine ⟨?_, ?_, ?_⟩
  · intro id job hjob
    obtain ⟨i, _, rfl, rfl⟩ := numbered_get?.mp hjob
    rfl
  · rw [hlist]
    simp [crowdRow, crowdRecord]
  · rw [hlist, List.map_map]
    exact List.Perm.refl _

variable {n}

theorem mem_crowdGroup {p : Peer} (h : p ∈ (crowdGroup finishedAt n).peers) :
    p.finishedAt = finishedAt ∧ (crowdGroup finishedAt n).rank p < n := by
  obtain ⟨i, hi, rfl⟩ := List.mem_map.mp h
  refine ⟨rfl, ?_⟩
  rw [List.mem_range] at hi
  have hlt : (crowdGroup finishedAt n).rank (crowdPeer finishedAt i) <
      (crowdGroup finishedAt n).peers.length := by
    apply List.countP_lt_length_iff.mpr
    exact ⟨_, h, by simp [crowdPeer, Peer.newer]⟩
  simpa [crowdGroup] using hlt

/-- The first of the crowd is the oldest. -/
theorem crowdGroup_rank_first :
    (crowdGroup finishedAt (n + 1)).rank (crowdPeer finishedAt 0) = n := by
  have hpeers : (crowdGroup finishedAt (n + 1)).peers = crowdPeer finishedAt 0 ::
      (List.range n).map (crowdPeer finishedAt ∘ Nat.succ) := by
    simp only [crowdGroup, List.range_succ_eq_map, List.map_cons, List.map_map]
  rw [Group.rank, hpeers, rankIn_cons]
  have hall : rankIn Peer.newer ((List.range n).map (crowdPeer finishedAt ∘ Nat.succ))
      (crowdPeer finishedAt 0) = n := by
    rw [rankIn, List.countP_eq_length.mpr, List.length_map, List.length_range]
    intro p hp
    obtain ⟨i, _, rfl⟩ := List.mem_map.mp hp
    simp [crowdPeer, Peer.newer]
  rw [hall, if_neg (by simp [crowdPeer, Peer.newer]), Nat.add_zero]

theorem crowdKeyspace_get? {i : ℕ} (hi : i < n) :
    (crowdKeyspace name state finishedAt n).jobs.get? (crowdPeer finishedAt i).id =
      some (crowdHash name state finishedAt i) :=
  numbered_get?.mpr ⟨i, hi, rfl, rfl⟩

theorem crowdTables_get? {i : ℕ} (hi : i < n) :
    (crowdTables name state finishedAt n).jobs.get? (crowdPeer finishedAt i).id =
      some (crowdRow name state finishedAt i) :=
  numbered_get?.mpr ⟨i, hi, rfl, rfl⟩

end Crowd

/-! ## What an agreeing policy is like -/

section Agrees

variable {name : String} {state : TerminalState} {keep : KeepPolicy} {now : ℤ}
  {policy : KeepStatePolicy}

/-- Agreement, on a group of jobs that end together. -/
theorem KeepAgrees.crowd (h : KeepAgrees name state keep now) (finishedAt : ℤ) (n : ℕ) :
    (∃ ks', Redis.applyKeep (crowdKeyspace name state finishedAt n) name state (some keep) now =
        .ok ks' ∧
      Pruned (crowdKeyspace name state finishedAt n).jobs.get? ks'.jobs.get?
        ((crowdGroup finishedAt n).Doomed (keep.governing state) now)) ∧
    ∃ t', Drizzle.applyKeep (crowdTables name state finishedAt n) name state (some keep) now = .ok t' ∧
      Pruned (crowdTables name state finishedAt n).jobs.get? t'.jobs.get?
        ((crowdGroup finishedAt n).Doomed (keep.governing state) now) :=
  (h Unit (crowdGroup finishedAt n) (crowdCore name state finishedAt n)
    { crowdJob name state finishedAt 0 with keep := some keep }
    (crowdKeyspace name state finishedAt n) (crowdTables name state finishedAt n)
    (crowdCore_holds name state finishedAt n) (crowdKeyspace_holds name state finishedAt n)
    (crowdTables_holds name state finishedAt n) rfl rfl rfl).2

/-- The statements that a successful Postgres run is made of. -/
theorem Drizzle.applyKeep_ok {V : Type} {t t' : Drizzle.Tables V}
    (hpolicy : Drizzle.keepPolicyFor keep state = some policy)
    (h : Drizzle.applyKeep t name state (some keep) now = .ok t') :
    ∃ t₁, Drizzle.applyAge t name state policy now = .ok t₁ ∧
      Drizzle.applyCount t₁ name state policy = .ok t' := by
  rw [Drizzle.applyKeep, Option.bind_some, hpolicy] at h
  simp only at h
  cases hage : Drizzle.applyAge t name state policy now with
  | error e =>
    rw [hage] at h
    cases h
  | ok t₁ =>
    rw [hage] at h
    exact ⟨t₁, rfl, h⟩

theorem Redis.applyKeep_ok {V : Type} {ks ks' : Redis.Keyspace V}
    (hpolicy : Redis.keepPolicyFor keep state = some policy)
    (h : Redis.applyKeep ks name state (some keep) now = .ok ks') :
    ∃ ks₁, Redis.applyAge ks name state.toJobState policy now = .ok ks₁ ∧
      ks' = Redis.applyCount ks₁ name state.toJobState policy := by
  rw [Redis.applyKeep, Option.bind_some, hpolicy] at h
  simp only at h
  cases hage : Redis.applyAge ks name state.toJobState policy now with
  | error e =>
    rw [hage] at h
    cases h
  | ok ks₁ =>
    rw [hage] at h
    exact ⟨ks₁, rfl, (Except.ok.inj h).symm⟩

/-- Redis needs an age that is a number. -/
theorem finite_of_applyAge {V : Type} {ks ks₁ : Redis.Keyspace V} {age : JsNumber}
    (hage : policy.ageMs = some age)
    (h : Redis.applyAge ks name state.toJobState policy now = .ok ks₁) : ∃ q, age = .finite q := by
  rw [Redis.applyAge, hage] at h
  cases age with
  | finite q => exact ⟨q, rfl⟩
  | posInf | negInf | nan => cases h

/-- Postgres needs a cutoff that is a timestamp. -/
theorem cutoff_of_applyAge {V : Type} {t t₁ : Drizzle.Tables V} {q : ℚ}
    (hage : policy.ageMs = some (.finite q))
    (h : Drizzle.applyAge t name state policy now = .ok t₁) :
    |(now : ℚ)| ≤ 8640000000000000 ∧ -210866803200001 < now - q ∧ now - q ≤ 8640000000000000 ∧
      t₁ = Drizzle.purgeAged t name state (Drizzle.cut (now - q)) := by
  rw [Drizzle.applyAge, hage] at h
  simp only at h
  cases hms : Drizzle.timestamptz (Drizzle.keepCutoff now (.finite q)) with
  | error e =>
    rw [hms] at h
    cases h
  | ok ms =>
    rw [hms] at h
    obtain ⟨hnow, hlow, hhigh, rfl⟩ := (Drizzle.timestamptz_keepCutoff now q ms).mp hms
    exact ⟨hnow, hlow, hhigh, (Except.ok.inj h).symm⟩

/-- With the whole group past the cutoff, the age statement leaves everything. -/
theorem Drizzle.applyAge_spares {V : Type} {t t₁ : Drizzle.Tables V} {g : Group}
    (h : Drizzle.HoldsGroup t name state g)
    (hfinite : ∀ age, policy.ageMs = some age → ∃ q, age = .finite q)
    (hlate : ∀ q, policy.ageMs = some (.finite q) →
      ∀ p ∈ g.peers, Drizzle.cut (now - q) < p.finishedAt)
    (hage : Drizzle.applyAge t name state policy now = .ok t₁) :
    Drizzle.HoldsGroup t₁ name state g ∧ ∀ id, t₁.jobs.get? id = t.jobs.get? id := by
  cases hsome : policy.ageMs with
  | none =>
    rw [Drizzle.applyAge, hsome] at hage
    obtain rfl := Except.ok.inj hage
    exact ⟨h, fun _ => rfl⟩
  | some age =>
    obtain ⟨q, rfl⟩ := hfinite age hsome
    obtain ⟨_, _, _, rfl⟩ := cutoff_of_applyAge hsome hage
    obtain ⟨hholds, hpruned⟩ := h.purgeAged (Drizzle.cut (now - q))
    have hspared : ∀ p ∈ g.peers, decide (p.finishedAt ≤ Drizzle.cut (now - q)) = false := by
      intro p hp
      have hlt := hlate q hsome p hp
      rw [decide_eq_false_iff_not]
      omega
    rw [Group.afterDue_of_not hspared] at hholds
    refine ⟨hholds, fun id => (hpruned id).2 ?_⟩
    rintro ⟨p, hp, _, _, hdue⟩
    exact absurd hdue (by simpa using hspared p hp)

/-- A count statement whose limit no rank reaches leaves everything. -/
theorem Drizzle.applyCount_spares {V : Type} {t t' : Drizzle.Tables V} {g : Group}
    (h : Drizzle.HoldsGroup t name state g) {count : JsNumber} (hcount : policy.count = some count)
    {limit : Option ℕ} (hlimit : Drizzle.limitOf count = .ok limit)
    (hwithin : ∀ m, limit = some m → ∀ p ∈ g.peers, g.rank p < m)
    (hrun : Drizzle.applyCount t name state policy = .ok t') (id : JobId) :
    t'.jobs.get? id = t.jobs.get? id := by
  rw [Drizzle.applyCount, hcount] at hrun
  simp only [hlimit, Except.map] at hrun
  obtain rfl := Except.ok.inj hrun
  apply (h.purgeBeyond limit id).2
  rintro ⟨p, hp, _, _, hdue⟩
  obtain ⟨m, rfl, hle⟩ := (Option.any_eq_true _ _).mp hdue
  exact absurd (hwithin m rfl p hp) (not_lt.mpr (of_decide_eq_true hle))

/-- A count that reads as 0 takes what the age left. -/
theorem Redis.applyCount_drops {V : Type} {ks ks₁ : Redis.Keyspace V} {g : Group}
    (h : Redis.HoldsGroup ks name state g)
    (hfinite : ∀ age, policy.ageMs = some age → ∃ q, age = .finite q)
    (hage : Redis.applyAge ks name state.toJobState policy now = .ok ks₁) {count : JsNumber}
    (hcount : policy.count = some count) (hzero : Redis.keepCount count = 0) {p : Peer}
    (hp : p ∈ g.peers) (howed : p.owed = false) (hspared : policy.pastAge now p = false) :
    (Redis.applyCount ks₁ name state.toJobState policy).jobs.get? p.id = none := by
  have hreadable : Redis.readable { policy with count := none } := ⟨by simp, hfinite⟩
  obtain ⟨ks₂, hks₂, hholds, _⟩ := Redis.applyAge_prunes h now hreadable
  obtain rfl := Except.ok.inj (hks₂.symm.trans hage)
  have hzeroCount : KeepStatePolicy.count ⟨some (.finite 0), none⟩ = some (.finite 0) := rfl
  have hbeyond := hholds.dropBeyond hzeroCount (by simp)
  have hkeep : Redis.keepCount (.finite 0) = 0 := by decide
  rw [Redis.applyCount, hcount]
  simp only [hzero]
  rw [hkeep] at hbeyond
  apply (hbeyond p.id).1
  refine ⟨p, List.mem_filter.mpr ⟨hp, ?_⟩, rfl, howed, ?_⟩
  · have hspared' : KeepStatePolicy.pastAge { policy with count := none } now p = false := hspared
    simp [hspared']
  · simp [Group.beyond, JsNumber.exceededBy]

/-- A time that the age spares, and so does its cutoff when it is cut. -/
theorem exists_late (now : ℤ)
    (hfinite : ∀ age, policy.ageMs = some age → ∃ q, age = .finite q) :
    ∃ time : ℤ, (∀ p : Peer, p.finishedAt = time → policy.pastAge now p = false) ∧
      ∀ q, policy.ageMs = some (.finite q) → Drizzle.cut (now - q) < time := by
  cases hage : policy.ageMs with
  | none =>
    refine ⟨0, fun p _ => Group.pastAge_of_none hage now p, ?_⟩
    intro q hq
    cases hq
  | some age =>
    obtain ⟨q, rfl⟩ := hfinite age hage
    refine ⟨Drizzle.cut (now - q) + 1, ?_, ?_⟩
    · rintro p hp
      have hlt : (now : ℚ) - q < Drizzle.cut (now - q) + 1 := by
        unfold Drizzle.cut
        split
        · exact Int.lt_floor_add_one _
        · exact (Int.le_ceil _).trans_lt (lt_add_one _)
      simp only [KeepStatePolicy.pastAge, hage, Option.any_some, JsNumber.reached, hp,
        decide_eq_false_iff_not, not_le]
      push_cast
      exact hlt
    · intro q' hq'
      obtain rfl : q = q' := by simpa using hq'
      omega

/-- The count statement brings nothing back. -/
theorem Drizzle.applyCount_none {V : Type} {t t' : Drizzle.Tables V} {id : JobId}
    (hrun : Drizzle.applyCount t name state policy = .ok t') (h : t.jobs.get? id = none) :
    t'.jobs.get? id = none := by
  unfold Drizzle.applyCount at hrun
  split at hrun
  · obtain rfl := Except.ok.inj hrun
    exact h
  · rename_i count _
    cases hlimit : Drizzle.limitOf count with
    | error e =>
      rw [hlimit] at hrun
      cases hrun
    | ok limit =>
      rw [hlimit] at hrun
      obtain rfl := Except.ok.inj hrun
      rw [Drizzle.purgeBeyond, Drizzle.purgeJobsWhere_jobs, h]
      rfl

section Needs

variable (h : KeepAgrees name state keep now) (hredis : Redis.keepPolicyFor keep state = some policy)
  (hdrizzle : Drizzle.keepPolicyFor keep state = some policy)
  (hpolicy : keep.governing state = some policy)

include h hredis in
theorem KeepAgrees.age_finite (age : JsNumber) (hage : policy.ageMs = some age) :
    ∃ q, age = .finite q := by
  obtain ⟨⟨ks', hks', _⟩, _⟩ := h.crowd 0 0
  obtain ⟨ks₁, hks₁, _⟩ := Redis.applyKeep_ok hredis hks'
  exact finite_of_applyAge hage hks₁

include h hdrizzle in
/-- Where the limit reaches no job of a late crowd and the age spares it, Postgres keeps it. -/
theorem KeepAgrees.spares {finishedAt : ℤ} {n : ℕ}
    (hfinite : ∀ age, policy.ageMs = some age → ∃ q, age = .finite q)
    (hlate : ∀ q, policy.ageMs = some (.finite q) → Drizzle.cut (now - q) < finishedAt)
    {count : JsNumber} (hcount : policy.count = some count) {limit : Option ℕ}
    (hlimit : Drizzle.limitOf count = .ok limit) (hwithin : ∀ m, limit = some m → n ≤ m) {i : ℕ}
    (hi : i < n) :
    ¬(crowdGroup finishedAt n).Doomed (keep.governing state) now (crowdPeer finishedAt i).id := by
  obtain ⟨_, t', ht', hpruned⟩ := h.crowd finishedAt n
  obtain ⟨t₁, ht₁, hrun⟩ := Drizzle.applyKeep_ok hdrizzle ht'
  obtain ⟨hholds, hsame⟩ := Drizzle.applyAge_spares (crowdTables_holds name state finishedAt n)
    hfinite (fun q hq p hp => by
      rw [(mem_crowdGroup finishedAt hp).1]
      exact hlate q hq) ht₁
  intro hdoomed
  have hgone := (hpruned _).1 hdoomed
  rw [Drizzle.applyCount_spares hholds hcount hlimit
    (fun m hm p hp => (mem_crowdGroup finishedAt hp).2.trans_le (hwithin m hm)) hrun, hsame,
    crowdTables_get? name state finishedAt hi] at hgone
  cases hgone

include h hredis hdrizzle

/-- A count that is not finite is 0 for Redis and no limit for Postgres. -/
theorem KeepAgrees.count_finite (count : JsNumber) (hcount : policy.count = some count) :
    ∃ q, count = .finite q := by
  have hfinite := h.age_finite hredis
  obtain ⟨time, hspared, hlate⟩ := exists_late now hfinite
  obtain ⟨⟨ks', hks', hpruned⟩, _⟩ := h.crowd time 1
  obtain ⟨ks₁, hks₁, rfl⟩ := Redis.applyKeep_ok hredis hks'
  have hpeer : crowdPeer time 0 ∈ (crowdGroup time 1).peers := List.mem_singleton.mpr rfl
  have hoff : Drizzle.limitOf count = .ok none → Redis.keepCount count = 0 → False := by
    intro hlimit hzero
    have hnot := h.spares hdrizzle hfinite hlate hcount hlimit (n := 1) (fun _ hm => by cases hm)
      Nat.one_pos
    have hdropped := Redis.applyCount_drops (crowdKeyspace_holds name state time 1) hfinite hks₁
      hcount hzero hpeer rfl (hspared _ rfl)
    have hstays := ((hpruned _).2 hnot).symm.trans hdropped
    rw [crowdKeyspace_get? name state time Nat.one_pos] at hstays
    cases hstays
  cases count with
  | finite q => exact ⟨q, rfl⟩
  | posInf | negInf | nan => exact (hoff rfl (by decide)).elim

include hpolicy in
/-- A count that rounds up keeps a job in Postgres that is beyond its floor. -/
theorem KeepAgrees.count_fits (count : JsNumber) (hcount : policy.count = some count) :
    ∃ q, count = .finite q ∧ CountFits q := by
  have hfinite := h.age_finite hredis
  obtain ⟨q, rfl⟩ := h.count_finite hredis hdrizzle count hcount
  obtain ⟨time, _, hlate⟩ := exists_late now hfinite
  obtain ⟨_, t', ht', _⟩ := h.crowd time 0
  obtain ⟨t₁, _, hrun⟩ := Drizzle.applyKeep_ok hdrizzle ht'
  rw [Drizzle.applyCount, hcount] at hrun
  simp only at hrun
  cases hlimit : Drizzle.limitOf (.finite q) with
  | error e =>
    rw [hlimit] at hrun
    cases hrun
  | ok limit =>
    obtain ⟨hlow, hhigh, rfl⟩ := Drizzle.limitOf_eq_ok.mp hlimit
    have hle : ⌊q⌋ ≤ Rounding.halfEven q := by
      unfold Rounding.halfEven
      split <;> omega
    refine ⟨q, rfl, hlow, ?_, by omega⟩
    by_contra hnot
    rw [not_or, not_lt, ← Rounding.halfEven_eq_floor_iff] at hnot
    obtain ⟨hnonneg, hup⟩ := hnot
    have hfloor := Int.floor_nonneg.mpr hnonneg
    refine h.spares hdrizzle hfinite hlate hcount hlimit (n := ⌊q⌋.toNat + 1) ?_
      (Nat.succ_pos _) ?_
    · intro m hm
      have hm := Option.some.inj hm
      omega
    · rw [hpolicy]
      refine ⟨policy, rfl, crowdPeer time 0,
        List.mem_map.mpr ⟨0, List.mem_range.mpr (Nat.succ_pos _), rfl⟩, rfl, rfl, .inr ?_⟩
      simp only [Group.beyond, hcount, Option.any_some, JsNumber.exceededBy, crowdGroup_rank_first,
        decide_eq_true_eq]
      omega

include hpolicy in
/-- A cutoff that is a fraction before 1970 is cut to a later time, which shows unless all go. -/
theorem KeepAgrees.cutoff_whole {q : ℚ} (hage : policy.ageMs = some (.finite q)) :
    0 ≤ (now : ℚ) - q ∨ ((now : ℚ) - q).den = 1 ∨ policy.KeepsNone := by
  by_contra hnot
  push Not at hnot
  obtain ⟨hneg, hden, hcount⟩ := hnot
  have hlt := Drizzle.lt_cut_of_fraction hneg hden
  obtain ⟨_, t', ht', hpruned⟩ := h.crowd (Drizzle.cut (now - q)) 1
  obtain ⟨t₁, ht₁, hrun⟩ := Drizzle.applyKeep_ok hdrizzle ht'
  have hpeer : ∀ p ∈ (crowdGroup (Drizzle.cut (now - q)) 1).peers,
      p = crowdPeer (Drizzle.cut (now - q)) 0 := fun p hp => List.mem_singleton.mp hp
  have hspared : ¬(crowdGroup (Drizzle.cut (now - q)) 1).Doomed (keep.governing state) now
      (crowdPeer (Drizzle.cut (now - q)) 0).id := by
    rw [hpolicy]
    rintro ⟨rule, hrule, p, hp, _, _, hdue⟩
    obtain rfl := Option.some.inj hrule
    obtain rfl := hpeer p hp
    rcases hdue with hpast | hbeyond
    · simp only [KeepStatePolicy.pastAge, hage, Option.any_some, JsNumber.reached,
        decide_eq_true_eq] at hpast
      exact absurd hpast (not_le.mpr hlt)
    · obtain ⟨count, hsome, hexceeded⟩ := (Option.any_eq_true _ _).mp hbeyond
      obtain ⟨c, rfl⟩ := h.count_finite hredis hdrizzle count hsome
      rw [crowdGroup_rank_first] at hexceeded
      simp only [JsNumber.exceededBy, decide_eq_true_eq] at hexceeded
      have hfloor : ⌊c⌋ < 1 := by omega
      exact hcount ⟨c, hsome, by exact_mod_cast Int.floor_lt.mp hfloor⟩
  have hkept := (hpruned _).2 hspared
  obtain ⟨_, _, _, rfl⟩ := cutoff_of_applyAge hage ht₁
  have hgone := (((crowdTables_holds name state (Drizzle.cut (now - q)) 1).purgeAged
    (Drizzle.cut (now - q))).2 (crowdPeer (Drizzle.cut (now - q)) 0).id).1
      ⟨_, List.mem_singleton.mpr rfl, rfl, rfl, by simp [crowdPeer]⟩
  rw [Drizzle.applyCount_none hrun hgone,
    crowdTables_get? name state (Drizzle.cut (now - q)) Nat.one_pos] at hkept
  cases hkept

end Needs

theorem KeepAgrees.portable (h : KeepAgrees name state keep now)
    (hredis : Redis.keepPolicyFor keep state = some policy)
    (hdrizzle : Drizzle.keepPolicyFor keep state = some policy)
    (hpolicy : keep.governing state = some policy) : policy.Portable now := by
  refine ⟨h.count_fits hredis hdrizzle hpolicy, fun age hage => ?_⟩
  obtain ⟨q, rfl⟩ := h.age_finite hredis age hage
  obtain ⟨_, t', ht', _⟩ := h.crowd 0 0
  obtain ⟨t₁, ht₁, _⟩ := Drizzle.applyKeep_ok hdrizzle ht'
  obtain ⟨hnow, hlow, hhigh, _⟩ := cutoff_of_applyAge hage ht₁
  exact ⟨q, rfl, hnow, hlow, hhigh, h.cutoff_whole hredis hdrizzle hpolicy hage⟩

end Agrees

/-! ## Agreement -/

/-- A policy without rules is portable. -/
theorem portable_bare (now : ℤ) : KeepStatePolicy.Portable ⟨none, none⟩ now :=
  ⟨fun _ h => (by cases h), fun _ h => by cases h⟩

/-- The drivers agree on a policy, whatever the group, exactly when it is portable. -/
theorem keep_agrees_iff (name : String) (state : TerminalState) (keep : KeepPolicy) (now : ℤ) :
    KeepAgrees name state keep now ↔
      ∀ policy, keep.governing state = some policy → policy.Portable now := by
  constructor
  · intro h policy hpolicy
    have hredis : keep.governing state = Redis.keepPolicyFor keep state ∨ _ :=
      governing_of_stored rfl
    have hdrizzle : keep.governing state = Drizzle.keepPolicyFor keep state ∨ _ :=
      governing_of_stored rfl
    rcases hredis with hredis | ⟨_, hbare⟩
    · rcases hdrizzle with hdrizzle | ⟨_, hbare⟩
      · exact h.portable (hredis.symm.trans hpolicy) (hdrizzle.symm.trans hpolicy) hpolicy
      · obtain rfl := Option.some.inj (hbare.symm.trans hpolicy)
        exact portable_bare now
    · obtain rfl := Option.some.inj (hbare.symm.trans hpolicy)
      exact portable_bare now
  · intro hportable V g c job ks t hmem hredis hdrizzle hname hstate hkeep
    refine ⟨?_, Redis.applyKeep_prunes hredis fun policy hp => (hportable policy hp).readable,
      Drizzle.applyKeep_prunes hdrizzle hportable⟩
    subst hname
    have hpruned := Memory.applyKeep_prunes hmem hstate now
    rwa [hkeep] at hpruned

/-- A count of -1: the transaction of the only completed job fails in Postgres. -/
theorem negative_count_fails :
    Drizzle.applyKeep (crowdTables "mail" .completed 1000 1) "mail" .completed
        (some { completed := some ⟨some (.finite (-1)), none⟩ }) 1000 = .error .invalidLimit ∧
      ¬KeepAgrees "mail" .completed { completed := some ⟨some (.finite (-1)), none⟩ } 1000 := by
  have hlimit : Drizzle.limitOf (.finite (-1)) = .error .invalidLimit := by decide +kernel
  have hfails : Drizzle.applyKeep (crowdTables "mail" .completed 1000 1) "mail" .completed
      (some { completed := some ⟨some (.finite (-1)), none⟩ }) 1000 = .error .invalidLimit :=
    congrArg (Except.map (Drizzle.purgeBeyond (crowdTables "mail" .completed 1000 1) "mail" .completed))
      hlimit
  refine ⟨hfails, fun h => ?_⟩
  obtain ⟨_, t', ht', _⟩ := h.crowd 1000 1
  cases hfails.symm.trans ht'

end EffectMq
