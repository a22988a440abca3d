import EffectMq.Retention
import EffectMq.RedisJobStore.Scripts

/-! # Retention in the Redis driver

`applyKeep` reads the group from its sorted set twice: the members up to the age cutoff, then, when
those are gone, all that remain, sorted anew for the count. The script stops only on an age that
`JSON.stringify` turned into `null`.
-/

namespace EffectMq.Redis
set_option autoImplicit false
set_option maxHeartbeats 250000

variable {V : Type}

/-- The hashes of one name and terminal state. -/
def terminalJobs (ks : Keyspace V) (name : String) (state : TerminalState) : List (JobHash V) :=
  ks.jobs.values.filter fun job => decide (job.name = name ∧ job.state = state.toJobState)

def peerOf (ks : Keyspace V) (job : JobHash V) : Peer :=
  ⟨job.id, job.finishedAt.getD 0, job.seq, owesCascades ks job.id⟩

/-- The hashes of that name and state are the group, and its sorted set lists them. -/
structure HoldsGroup (ks : Keyspace V) (name : String) (state : TerminalState) (g : Group) : Prop where
  keyed : ∀ id job, ks.jobs.get? id = some job → job.id = id
  finished : ∀ job ∈ terminalJobs ks name state, job.finishedAt.isSome
  peers : ((terminalJobs ks name state).map (peerOf ks)).Perm g.peers
  indexed : ∀ id t, (ks.terminal name state.toJobState).score? id = some t ↔
    ∃ job, ks.jobs.get? id = some job ∧ job.name = name ∧ job.state = state.toJobState ∧
      job.finishedAt = some t

/-! ## Deleting one job -/

theorem foldl_dropRow (flowId : JobId) (keys : List String) (ks : Keyspace V) :
    ∃ rows pending cascade,
      keys.foldl (dropRow flowId) ks =
        { ks with flowRows := rows, flowPending := pending, flowCascade := cascade } ∧
      ∀ id key, id ≠ flowId → rows.get? (id, key) = ks.flowRows.get? (id, key) := by
  induction keys generalizing ks with
  | nil => exact ⟨_, _, _, rfl, fun _ _ _ => rfl⟩
  | cons key keys ih =>
    obtain ⟨rows, pending, cascade, hfold, hrows⟩ := ih (dropRow flowId ks key)
    refine ⟨rows, pending, cascade, hfold, fun id k hne => ?_⟩
    rw [hrows id k hne]
    simp [dropRow, hne]

/-- The rows of a flow go; every other key but the sweep indexes stays. -/
theorem dropRows_spec (ks : Keyspace V) (flowId : JobId) :
    ∃ rows pending cascade,
      dropRows ks flowId =
        { ks with
          flowRows := rows, flowPending := pending, flowCascade := cascade,
          flowIndex := upd ks.flowIndex flowId ∅ } ∧
      ∀ id key, id ≠ flowId → rows.get? (id, key) = ks.flowRows.get? (id, key) := by
  obtain ⟨rows, pending, cascade, hfold, hrows⟩ :=
    foldl_dropRow flowId (ks.flowIndex flowId).members ks
  refine ⟨rows, pending, cascade, ?_, hrows⟩
  rw [dropRows, hfold]

theorem deleteJob_of_none {ks : Keyspace V} {id : JobId} (h : ks.jobs.get? id = none) :
    deleteJob ks id = ks := by
  rw [deleteJob, h]

/-- The keyspace without the index entries of a job, its hash and rows still there. -/
def unlisted (ks : Keyspace V) (id : JobId) (job : JobHash V) : Keyspace V :=
  { ks with
    counts := upd ks.counts job.queue
      (upd (ks.counts job.queue) job.state (ks.counts job.queue job.state + -1))
    all := ks.all.rem id
    byname := upd ks.byname job.name ((ks.byname job.name).rem id)
    byqueue := upd ks.byqueue job.queue ((ks.byqueue job.queue).rem id)
    finished := upd ks.finished job.state ((ks.finished job.state).rem id)
    terminal := upd ks.terminal job.name
      (upd (ks.terminal job.name) job.state ((ks.terminal job.name job.state).rem id))
    active := ks.active.rem id
    waiting := upd ks.waiting job.queue ((ks.waiting job.queue).rem (waitingMember job.seq id))
    delayed := upd ks.delayed job.queue ((ks.delayed job.queue).rem id) }

/-- A deletion in one record, the flow rows apart. -/
theorem deleteJob_eq {ks : Keyspace V} {id : JobId} {job : JobHash V}
    (h : ks.jobs.get? id = some job) :
    ∃ rows pending cascade,
      deleteJob ks id =
        { unlisted ks id job with
          jobs := ks.jobs.delete id, attempts := upd ks.attempts id [], flowRows := rows,
          flowPending := pending, flowCascade := cascade, flowIndex := upd ks.flowIndex id ∅ } ∧
      ∀ id' key, id' ≠ id → rows.get? (id', key) = ks.flowRows.get? (id', key) := by
  obtain ⟨rows, pending, cascade, hdrop, hrows⟩ := dropRows_spec (unlisted ks id job) id
  refine ⟨rows, pending, cascade, ?_, hrows⟩
  have hkeyspace : remDelayed (remWaiting (remActive (remTerminal
      { countsAdd ks job.queue job.state (-1) with
        all := ks.all.rem id
        byname := upd ks.byname job.name ((ks.byname job.name).rem id)
        byqueue := upd ks.byqueue job.queue ((ks.byqueue job.queue).rem id) }
      job.name job.state id) id) job.queue id) job.queue id = unlisted ks id job := by
    simp [remDelayed, remWaiting, remActive, remTerminal, countsAdd, unlisted, h]
  have hdelete : deleteJob ks id =
      { dropRows (unlisted ks id job) id with
        jobs := (dropRows (unlisted ks id job) id).jobs.delete id
        attempts := upd (dropRows (unlisted ks id job) id).attempts id [] } := by
    rw [deleteJob, h, ← hkeyspace]
    rfl
  rw [hdelete, hdrop]
  rfl

theorem deleteJob_jobs (ks : Keyspace V) (id id' : JobId) :
    (deleteJob ks id).jobs.get? id' = if id' = id then none else ks.jobs.get? id' := by
  cases hjob : ks.jobs.get? id with
  | none =>
    rw [deleteJob_of_none hjob]
    split
    · rename_i h
      rw [h, hjob]
    · rfl
  | some job =>
    obtain ⟨_, _, _, hdelete, -⟩ := deleteJob_eq hjob
    rw [hdelete, JsMap.get?_delete]

theorem deleteJob_owesCascades {ks : Keyspace V} {id : JobId} (howed : owesCascades ks id = false)
    (id' : JobId) : owesCascades (deleteJob ks id) id' = owesCascades ks id' := by
  cases hjob : ks.jobs.get? id with
  | none => rw [deleteJob_of_none hjob]
  | some job =>
    obtain ⟨rows, _, _, hdelete, hrows⟩ := deleteJob_eq hjob
    rw [hdelete]
    by_cases h : id' = id
    · subst h
      rw [howed]
      simp only [owesCascades, upd_apply, if_true]
      rfl
    · simp only [owesCascades, upd_apply, if_neg h]
      simp [hrows _ _ h]

theorem deleteJob_terminal {ks : Keyspace V} {id : JobId} {job : JobHash V}
    (hjob : ks.jobs.get? id = some job) (id' : JobId) :
    ((deleteJob ks id).terminal job.name job.state).score? id' =
      if id' = id then none else (ks.terminal job.name job.state).score? id' := by
  obtain ⟨_, _, _, hdelete, -⟩ := deleteJob_eq hjob
  rw [hdelete]
  simp [unlisted]

/-! ## Deleting a list of jobs -/

theorem deleteUnowed_cons (ks : Keyspace V) (id : JobId) (ids : List JobId) :
    deleteUnowed ks (id :: ids) =
      deleteUnowed (if owesCascades ks id then ks else deleteJob ks id) ids := rfl

theorem deleteUnowed_owesCascades (ks : Keyspace V) (ids : List JobId) (id : JobId) :
    owesCascades (deleteUnowed ks ids) id = owesCascades ks id := by
  induction ids generalizing ks with
  | nil => rfl
  | cons i is ih =>
    rw [deleteUnowed_cons, ih]
    split
    · rfl
    · rename_i howed
      exact deleteJob_owesCascades (by simpa using howed) id

theorem deleteUnowed_jobs (ks : Keyspace V) (ids : List JobId) (id : JobId) :
    (deleteUnowed ks ids).jobs.get? id =
      if id ∈ ids ∧ owesCascades ks id = false then none else ks.jobs.get? id := by
  induction ids generalizing ks with
  | nil => simp [deleteUnowed]
  | cons i is ih =>
    rw [deleteUnowed_cons, ih]
    by_cases howed : owesCascades ks i = true
    · rw [if_pos howed]
      by_cases h : id = i
      · subst h
        simp [howed]
      · simp [h]
    · have howed' : owesCascades ks i = false := by simpa using howed
      rw [if_neg howed, deleteJob_owesCascades howed', deleteJob_jobs]
      by_cases h : id = i
      · subst h
        simp [howed']
      · simp [h]

/-- In a group's sorted set, provided the ids that have a hash belong to the group. -/
theorem deleteUnowed_terminal {name : String} {state : JobState} {ks : Keyspace V}
    {ids : List JobId}
    (hgroup : ∀ id ∈ ids, ∀ job, ks.jobs.get? id = some job → job.name = name ∧ job.state = state)
    (id : JobId) :
    ((deleteUnowed ks ids).terminal name state).score? id =
      if id ∈ ids ∧ owesCascades ks id = false ∧ (ks.jobs.get? id).isSome then none
      else (ks.terminal name state).score? id := by
  induction ids generalizing ks with
  | nil => simp [deleteUnowed]
  | cons i is ih =>
    rw [deleteUnowed_cons]
    by_cases howed : owesCascades ks i = true
    · rw [if_pos howed, ih fun j hj => hgroup j (List.mem_cons_of_mem i hj)]
      by_cases h : id = i
      · subst h
        simp [howed]
      · simp [h]
    · have howed' : owesCascades ks i = false := by simpa using howed
      rw [if_neg howed]
      cases hjob : ks.jobs.get? i with
      | none =>
        rw [deleteJob_of_none hjob, ih fun j hj => hgroup j (List.mem_cons_of_mem i hj)]
        by_cases h : id = i
        · subst h
          simp [hjob]
        · simp [h]
      | some job =>
        obtain ⟨rfl, rfl⟩ := hgroup i List.mem_cons_self job hjob
        rw [ih, deleteJob_owesCascades howed', deleteJob_jobs, deleteJob_terminal hjob]
        · by_cases h : id = i
          · subst h
            simp [howed', hjob]
          · simp [h]
        · intro j hj job' hjob'
          rw [deleteJob_jobs] at hjob'
          split at hjob'
          · cases hjob'
          · exact hgroup j (List.mem_cons_of_mem i hj) job' hjob'

namespace HoldsGroup

variable {ks : Keyspace V} {name : String} {state : TerminalState} {g : Group}

theorem mem_terminalJobs (h : HoldsGroup ks name state g) {job : JobHash V} :
    job ∈ terminalJobs ks name state ↔
      ks.jobs.get? job.id = some job ∧ job.name = name ∧ job.state = state.toJobState := by
  rw [terminalJobs, List.mem_filter, JsMap.mem_values, decide_eq_true_eq]
  constructor
  · rintro ⟨⟨id, hjob⟩, hgroup⟩
    rw [h.keyed id job hjob]
    exact ⟨hjob, hgroup⟩
  · rintro ⟨hjob, hgroup⟩
    exact ⟨⟨_, hjob⟩, hgroup⟩

theorem peerOf_deleteUnowed (ids : List JobId) :
    peerOf (Redis.deleteUnowed ks ids) = peerOf ks := by
  funext job
  rw [peerOf, peerOf, deleteUnowed_owesCascades]

/-- The members of the sorted set are the jobs of the group. -/
theorem score?_eq_some (h : HoldsGroup ks name state g) {id : JobId} {t : ℤ} :
    (ks.terminal name state.toJobState).score? id = some t ↔
      ∃ p ∈ g.peers, p.id = id ∧ p.finishedAt = t := by
  rw [h.indexed]
  constructor
  · rintro ⟨job, hjob, hname, hstate, ht⟩
    obtain rfl := h.keyed id job hjob
    have hp := Group.mem_of_listed h.peers (h.mem_terminalJobs.mpr ⟨hjob, hname, hstate⟩)
    exact ⟨_, hp, rfl, by simp [peerOf, ht]⟩
  · rintro ⟨p, hp, rfl, rfl⟩
    obtain ⟨job, hjob, rfl⟩ := Group.exists_of_listed h.peers hp
    obtain ⟨hget, hname, hstate⟩ := h.mem_terminalJobs.mp hjob
    obtain ⟨t, ht⟩ := Option.isSome_iff_exists.mp (h.finished job hjob)
    exact ⟨job, hget, hname, hstate, by simp [peerOf, ht]⟩

/-- A job with a hash in the group's sorted set belongs to the group. -/
theorem group_of_member (h : HoldsGroup ks name state g) {id : JobId} {job : JobHash V}
    (hmember : id ∈ (ks.terminal name state.toJobState).members)
    (hjob : ks.jobs.get? id = some job) : job.name = name ∧ job.state = state.toJobState := by
  obtain ⟨t, ht⟩ := ZSet.mem_members.mp hmember
  obtain ⟨job', hjob', hname, hstate, _⟩ := (h.indexed id t).mp ht
  obtain rfl := Option.some.inj (hjob.symm.trans hjob')
  exact ⟨hname, hstate⟩

/-- Deleting the due members of the sorted set leaves a smaller group. -/
theorem deleteUnowed (h : HoldsGroup ks name state g) {ids : List JobId} {due : Peer → Bool}
    (hmembers : ∀ id ∈ ids, id ∈ (ks.terminal name state.toJobState).members)
    (hdue : ∀ p ∈ g.peers, p.id ∈ ids ↔ due p = true) :
    HoldsGroup (Redis.deleteUnowed ks ids) name state (g.afterDue due) := by
  have hget : ∀ {id job}, (Redis.deleteUnowed ks ids).jobs.get? id = some job ↔
      ks.jobs.get? id = some job ∧ ¬(id ∈ ids ∧ owesCascades ks id = false) := by
    intro id job
    rw [deleteUnowed_jobs]
    split <;> simp_all
  have hkeyed : ∀ id job, (Redis.deleteUnowed ks ids).jobs.get? id = some job → job.id = id :=
    fun id job hjob => h.keyed id job (hget.mp hjob).1
  have hstays : ∀ {job}, job ∈ terminalJobs ks name state →
      (¬(job.id ∈ ids ∧ owesCascades ks job.id = false) ↔
        (!(due (peerOf ks job) && !(peerOf ks job).owed)) = true) := by
    intro job hjob
    have hiff := hdue _ (Group.mem_of_listed h.peers hjob)
    simp only [peerOf] at hiff ⊢
    rw [hiff]
    cases due _ <;> cases owesCascades ks job.id <;> simp
  have hmem : ∀ job, job ∈ terminalJobs (Redis.deleteUnowed ks ids) name state ↔
      job ∈ terminalJobs ks name state ∧
        (!(due (peerOf ks job) && !(peerOf ks job).owed)) = true := by
    intro job
    rw [terminalJobs, List.mem_filter, JsMap.mem_values, decide_eq_true_eq]
    simp only [hget]
    constructor
    · rintro ⟨⟨id, hjob, hkept⟩, hin⟩
      obtain rfl := h.keyed id job hjob
      have hin' := h.mem_terminalJobs.mpr ⟨hjob, hin⟩
      exact ⟨hin', (hstays hin').mp hkept⟩
    · rintro ⟨hin, hkept⟩
      obtain ⟨hjob, hgroup⟩ := h.mem_terminalJobs.mp hin
      exact ⟨⟨job.id, hjob, (hstays hin).mpr hkept⟩, hgroup⟩
  refine ⟨hkeyed, fun job hjob => h.finished job ((hmem job).mp hjob).1, ?_, ?_⟩
  · refine Group.listed_keepWhere h.peers ?_ hmem fun job _ => congrFun (peerOf_deleteUnowed ids) job
    exact (JsMap.nodup_values_map hkeyed).sublist (List.filter_sublist.map _)
  · intro id t
    rw [deleteUnowed_terminal fun id hid job => h.group_of_member (hmembers id hid)]
    simp only [hget]
    split
    · rename_i hgone
      simp_all
    · rename_i hkept
      rw [h.indexed]
      constructor
      · rintro ⟨job, hjob, hin⟩
        exact ⟨job, ⟨hjob, fun hid => hkept ⟨hid.1, hid.2, by simp [hjob]⟩⟩, hin⟩
      · rintro ⟨job, ⟨hjob, _⟩, hin⟩
        exact ⟨job, hjob, hin⟩

/-- And what is gone are the due jobs that owe no cascades. -/
theorem deleteUnowed_prunes (h : HoldsGroup ks name state g) {ids : List JobId} {due : Peer → Bool}
    (hmembers : ∀ id ∈ ids, id ∈ (ks.terminal name state.toJobState).members)
    (hdue : ∀ p ∈ g.peers, p.id ∈ ids ↔ due p = true) :
    Pruned ks.jobs.get? (Redis.deleteUnowed ks ids).jobs.get? (g.Due due) := by
  intro id
  have hiff : g.Due due id ↔ id ∈ ids ∧ owesCascades ks id = false := by
    constructor
    · rintro ⟨p, hp, rfl, howed, hd⟩
      obtain ⟨job, hjob, rfl⟩ := Group.exists_of_listed h.peers hp
      exact ⟨(hdue _ hp).mpr hd, howed⟩
    · rintro ⟨hid, howed⟩
      obtain ⟨t, ht⟩ := ZSet.mem_members.mp (hmembers id hid)
      obtain ⟨p, hp, rfl, _⟩ := h.score?_eq_some.mp ht
      obtain ⟨job, _, rfl⟩ := Group.exists_of_listed h.peers hp
      exact ⟨_, hp, rfl, howed, (hdue _ hp).mp hid⟩
  rw [hiff, deleteUnowed_jobs]
  constructor
  · exact fun hd => if_pos hd
  · exact fun hd => if_neg hd

/-- The age rule reads the members up to the cutoff. -/
theorem mem_aged (h : HoldsGroup ks name state g) {policy : KeepStatePolicy} {age : ℚ} {now : ℤ}
    (hage : policy.ageMs = some (.finite age)) {p : Peer} (hp : p ∈ g.peers) :
    p.id ∈ (ks.terminal name state.toJobState).range (fun t => decide ((t : ℚ) ≤ now - age)) ↔
      policy.pastAge now p = true := by
  have hpast : policy.pastAge now p = decide ((p.finishedAt : ℚ) ≤ now - age) := by
    simp [KeepStatePolicy.pastAge, hage, JsNumber.reached]
  rw [ZSet.mem_range, hpast]
  constructor
  · rintro ⟨t, ht, hcutoff⟩
    obtain ⟨q, hq, hid, rfl⟩ := h.score?_eq_some.mp ht
    rwa [Group.eq_of_id hp hq hid.symm]
  · intro hcutoff
    exact ⟨p.finishedAt, h.score?_eq_some.mpr ⟨p, hp, rfl, rfl⟩, hcutoff⟩

/-- The entries the count rule sorts. -/
def keepEntries (ks : Keyspace V) (name : String) (state : JobState) : List KeepEntry :=
  (ks.terminal name state).withScores.map fun member =>
    { id := member.1, finishedAt := member.2,
      seq := ((ks.jobs.get? member.1).map (·.seq)).getD 0 }

def peerOfEntry (ks : Keyspace V) (entry : KeepEntry) : Peer :=
  ⟨entry.id, entry.finishedAt, entry.seq, owesCascades ks entry.id⟩

theorem map_id_keepEntries : (keepEntries ks name state.toJobState).map (·.id) =
    (ks.terminal name state.toJobState).members := by
  rw [keepEntries, List.map_map, ← ZSet.map_fst_withScores]
  rfl

theorem listed_keepEntries (h : HoldsGroup ks name state g) :
    ((keepEntries ks name state.toJobState).map (peerOfEntry ks)).Perm g.peers := by
  have hids : (keepEntries ks name state.toJobState).map (fun e => (peerOfEntry ks e).id) =
      (ks.terminal name state.toJobState).members := map_id_keepEntries
  have hpeer : ∀ p ∈ g.peers, ∃ job, ks.jobs.get? p.id = some job ∧ p = peerOf ks job := by
    intro p hp
    obtain ⟨job, hjob, rfl⟩ := Group.exists_of_listed h.peers hp
    exact ⟨job, (h.mem_terminalJobs.mp hjob).1, rfl⟩
  apply Group.listed_of_mem (hids ▸ ZSet.nodup_members _)
  intro p
  constructor
  · rintro ⟨e, he, rfl⟩
    obtain ⟨member, hmember, rfl⟩ := List.mem_map.mp he
    rw [ZSet.mem_withScores] at hmember
    obtain ⟨q, hq, hid, ht⟩ := h.score?_eq_some.mp hmember
    obtain ⟨job, hjob, hpeer⟩ := hpeer q hq
    have heq : peerOfEntry ks ⟨member.1, member.2, ((ks.jobs.get? member.1).map (·.seq)).getD 0⟩ =
        q := by
      rw [← hid, hjob, ← ht, hpeer]
      rfl
    rw [heq]
    exact hq
  · intro hp
    obtain ⟨job, hjob, hpeer⟩ := hpeer p hp
    have hscore := h.score?_eq_some.mpr ⟨p, hp, rfl, rfl⟩
    refine ⟨_, List.mem_map_of_mem (ZSet.mem_withScores (e := (p.id, p.finishedAt)).mpr hscore), ?_⟩
    rw [hjob, hpeer]
    rfl

instance : Std.Total KeepEntry.newerFirst := descending_total KeepEntry.finishedAt KeepEntry.seq

instance : IsTrans KeepEntry KeepEntry.newerFirst :=
  descending_trans KeepEntry.finishedAt KeepEntry.seq

/-- Infinity reaches the script as `null`, which reads as 0; every other count reads as it should. -/
theorem keepCount_le {count : JsNumber} (h : count ≠ .posInf) (n : ℕ) :
    keepCount count ≤ n ↔ count.exceededBy n = true := by
  cases count with
  | finite q => rw [keepCount, decodedNumber, Option.getD_some, toNat_floor_le,
      JsNumber.exceededBy, decide_eq_true_eq]
  | posInf => exact absurd rfl h
  | negInf | nan => simp [keepCount, decodedNumber, JsNumber.exceededBy]

/-- The count rule deletes from the sorted entries past the count. -/
theorem mem_beyond (h : HoldsGroup ks name state g) {policy : KeepStatePolicy} {count : JsNumber}
    (hcount : policy.count = some count) (hfinite : count ≠ .posInf) {p : Peer} (hp : p ∈ g.peers) :
    p.id ∈ (((keepEntries ks name state.toJobState).insertionSort KeepEntry.newerFirst).drop
        (keepCount count)).map (·.id) ↔
      g.beyond policy p = true := by
  have hbeyond : g.beyond policy p = count.exceededBy (g.rank p) := by
    simp [Group.beyond, hcount]
  have hdrop : ∀ {e}, e ∈ keepEntries ks name state.toJobState →
      (e ∈ ((keepEntries ks name state.toJobState).insertionSort KeepEntry.newerFirst).drop
        (keepCount count) ↔ keepCount count ≤ g.rank (peerOfEntry ks e)) := fun he =>
    Group.mem_drop_sorted KeepEntry.newerFirst h.listed_keepEntries
      (fun _ _ _ _ hle => hle) he (keepCount count)
  rw [hbeyond, ← keepCount_le hfinite, List.mem_map]
  constructor
  · rintro ⟨e, he, hid⟩
    have hmem := (List.mem_insertionSort _).mp (List.mem_of_mem_drop he)
    have hpeer := Group.eq_of_id (Group.mem_of_listed h.listed_keepEntries hmem) hp hid
    rw [← hpeer]
    exact (hdrop hmem).mp he
  · intro hrank
    obtain ⟨e, he, rfl⟩ := Group.exists_of_listed h.listed_keepEntries hp
    exact ⟨e, (hdrop he).mpr hrank, rfl⟩

theorem members_beyond {count : ℕ} {id : JobId}
    (hid : id ∈ (((keepEntries ks name state.toJobState).insertionSort KeepEntry.newerFirst).drop
      count).map (·.id)) : id ∈ (ks.terminal name state.toJobState).members := by
  obtain ⟨e, he, rfl⟩ := List.mem_map.mp hid
  rw [← map_id_keepEntries]
  exact List.mem_map_of_mem ((List.mem_insertionSort _).mp (List.mem_of_mem_drop he))

theorem dropAged (h : HoldsGroup ks name state g) {policy : KeepStatePolicy} {age : ℚ} {now : ℤ}
    (hage : policy.ageMs = some (.finite age)) :
    HoldsGroup (Redis.dropAged ks name state.toJobState (now - age)) name state (g.afterAge policy now) ∧
      Pruned ks.jobs.get? (Redis.dropAged ks name state.toJobState (now - age)).jobs.get?
        (g.Due (policy.pastAge now)) := by
  have hmembers : ∀ id ∈ (ks.terminal name state.toJobState).range
      (fun t => decide ((t : ℚ) ≤ now - age)), id ∈ (ks.terminal name state.toJobState).members := by
    intro id hid
    obtain ⟨t, ht, _⟩ := ZSet.mem_range.mp hid
    exact ZSet.mem_members.mpr ⟨t, ht⟩
  exact ⟨h.deleteUnowed hmembers fun _ hp => h.mem_aged hage hp,
    h.deleteUnowed_prunes hmembers fun _ hp => h.mem_aged hage hp⟩

theorem dropBeyond (h : HoldsGroup ks name state g) {policy : KeepStatePolicy} {count : JsNumber}
    (hcount : policy.count = some count) (hfinite : count ≠ .posInf) :
    Pruned ks.jobs.get? (Redis.dropBeyond ks name state.toJobState (keepCount count)).jobs.get?
      (g.Due (g.beyond policy)) :=
  h.deleteUnowed_prunes (fun _ hid => members_beyond hid) fun _ hp =>
    h.mem_beyond hcount hfinite hp

end HoldsGroup

/-! ## The rule -/

/-- The counts and ages the script reads as they were written. -/
def readable (policy : KeepStatePolicy) : Prop :=
  policy.count ≠ some .posInf ∧ ∀ age, policy.ageMs = some age → ∃ q, age = .finite q

theorem applyAge_prunes {ks : Keyspace V} {name : String} {state : TerminalState} {g : Group}
    (h : HoldsGroup ks name state g) {policy : KeepStatePolicy} (now : ℤ)
    (hreadable : readable policy) :
    ∃ ks', applyAge ks name state.toJobState policy now = .ok ks' ∧
      HoldsGroup ks' name state (g.afterAge policy now) ∧
      Pruned ks.jobs.get? ks'.jobs.get? (g.Due (policy.pastAge now)) := by
  unfold applyAge
  cases hage : policy.ageMs with
  | none =>
    refine ⟨ks, rfl, ?_, Pruned.refl_of (Group.not_due (Group.pastAge_of_none hage now))⟩
    rw [Group.afterAge, Group.afterDue_of_not fun p _ => Group.pastAge_of_none hage now p]
    exact h
  | some age =>
    obtain ⟨q, rfl⟩ := hreadable.2 age hage
    exact ⟨_, rfl, h.dropAged hage⟩

theorem applyCount_prunes {ks : Keyspace V} {name : String} {state : TerminalState} {g : Group}
    (h : HoldsGroup ks name state g) {policy : KeepStatePolicy} (hreadable : readable policy) :
    Pruned ks.jobs.get? (applyCount ks name state.toJobState policy).jobs.get?
      (g.Due (g.beyond policy)) := by
  unfold applyCount
  cases hcount : policy.count with
  | none => exact Pruned.refl_of (Group.not_due (Group.beyond_of_none hcount g))
  | some count => exact h.dropBeyond hcount fun hinf => hreadable.1 (hcount.trans (hinf ▸ rfl))

theorem applyKeep_prunes {ks : Keyspace V} {name : String} {state : TerminalState} {g : Group}
    (h : HoldsGroup ks name state g) {keep : KeepPolicy} {now : ℤ}
    (hreadable : ∀ policy, keep.governing state = some policy → readable policy) :
    ∃ ks', applyKeep ks name state (some keep) now = .ok ks' ∧
      Pruned ks.jobs.get? ks'.jobs.get? (g.Doomed (keep.governing state) now) := by
  have hstored : keep.governing state = keepPolicyFor keep state ∨ _ := governing_of_stored rfl
  cases hpolicy : keepPolicyFor keep state with
  | none =>
    refine ⟨ks, by rw [applyKeep, Option.bind_some, hpolicy], Pruned.refl_of fun id hd => ?_⟩
    rw [Group.doomed_of_stored hstored, hpolicy] at hd
    exact g.not_doomed_of_none now id hd
  | some policy =>
    have heq : keep.governing state = some policy := by
      rcases hstored with hstored | ⟨hnone, _⟩
      · exact hstored.trans hpolicy
      · rw [hnone] at hpolicy
        cases hpolicy
    obtain ⟨ks₁, hks₁, hholds, haged⟩ := applyAge_prunes h now (hreadable policy heq)
    have hbeyond := applyCount_prunes hholds (hreadable policy heq)
    refine ⟨applyCount ks₁ name state.toJobState policy, ?_, ?_⟩
    · rw [applyKeep, Option.bind_some, hpolicy]
      simp only [hks₁, Except.map]
    · rw [heq]
      exact (haged.trans hbeyond).congr (g.doomed_of_age_then_count policy now)

end EffectMq.Redis
