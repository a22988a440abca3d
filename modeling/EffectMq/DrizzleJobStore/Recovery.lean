import EffectMq.DrizzleJobStore.Retention

/-! # Stall recovery in the Postgres driver

`recoverStalled` flips every expired row in one `UPDATE` and then settles the returned rows one by
one, retention included. Retention sees all the flipped rows at once: it may delete one that the loop
has not reached, whose ledger entry then violates the foreign key, and the whole recovery is rolled
back.

`Recovers` is what the recovery is to do and `Orderly` when it does. This module has the loop body:
retention under any policy (`applyKeep_spec`), and `Midway`, what the tables hold while the loop runs
(`settle_ok_iff` says when a step lands, `settle_ok` what it leaves).
-/

namespace EffectMq.Drizzle
set_option autoImplicit false
set_option maxHeartbeats 250000

variable {V : Type}

/-! ## One job at a time -/

def flipJob (t : Tables V) (id : JobId) (maxStalledCount : ℤ) (now : Millis) : Tables V :=
  { t with
    jobs := t.jobs.modify id fun row =>
      if expired now row then recoverRow maxStalledCount now row else row }

/-- The recovery of one job, as if it were the only expired one. -/
def recoverOne (maxStalledCount : ℤ) (now : Millis) (acc : List Recovered × Tables V) (id : JobId) :
    Except SqlError (List Recovered × Tables V) :=
  let t := flipJob acc.2 id maxStalledCount now
  match t.jobs.get? id with
  | none => .ok acc
  | some row => settleRecovered now (acc.1, t) row

def recoverEach (t : Tables V) (ids : List JobId) (maxStalledCount : ℤ) (now : Millis) :
    Except SqlError (List Recovered × Tables V) :=
  ids.foldlM (recoverOne maxStalledCount now) ([], t)

/-! ## What the recovery is to do -/

/-- What the tables hold between calls. -/
structure Tables.WellFormed (t : Tables V) : Prop where
  keyed : ∀ id row, t.jobs.get? id = some row → row.id = id
  seqs : (t.jobs.values.map (·.seq)).Nodup
  finished : ∀ id row, t.jobs.get? id = some row → row.state = .cancelled → row.finishedAt.isSome

/-- `returned` lists the expired jobs, each once. -/
structure Returns (t : Tables V) (now : Millis) (returned : List JobId) : Prop where
  nodup : returned.Nodup
  expired : ∀ id, id ∈ returned ↔ ∃ row, t.jobs.get? id = some row ∧ expired now row = true

/-- The ledger entry of a recovered job. -/
def recoveryEntry (t : Tables V) (now : Millis) (row : JobRow V) : AttemptRecord V where
  attempt := ((t.attempts row.id).map (·.attempt)).foldl max 0 + 1
  startedAt := row.processedAt
  finishedAt := now
  outcome := if row.cancelRequested then .cancelled else .stalled
  exit := none

/-- The report of a recovered job that ends and carries an envelope. -/
def recoveryReport (maxStalledCount : ℤ) (now : Millis) (row : JobRow V) :
    Option (String × String × FlowChildReport V) :=
  let row := recoverRow maxStalledCount now row
  match row.state.terminal? with
  | none => none
  | some outcome =>
    row.parent.map fun parent =>
      (parent.flowName, parent.parentStoreKey,
        { flowId := parent.flowId, childKey := parent.childKey, outcome, exit := row.exit,
          failedReason := row.failedReason })

def OutboxEntry.content (entry : OutboxEntry V) : String × String × FlowChildReport V :=
  (entry.flowName, entry.parentStoreKey, entry.report)

/-- The loop after it has settled the rows of `ids`. -/
def settledUpTo (t : Tables V) (ids : List JobId) (maxStalledCount : ℤ) (now : Millis) :
    Except SqlError (List Recovered × Tables V) :=
  let t := flipExpired t maxStalledCount now
  (ids.filterMap t.jobs.get?).foldlM (settleRecovered now) ([], t)

/-- A job gets one ledger entry when its turn comes, and keeps it unless it is pruned. -/
def EntersOnce (t t' : Tables V) (returned : List JobId) (maxStalledCount : ℤ) (now : Millis) :
    Prop :=
  ∀ before id after row, returned = before ++ id :: after → t.jobs.get? id = some row →
    ∃ acc t₁, settledUpTo t before maxStalledCount now = .ok acc ∧
      insertAttempt acc.2 id (if row.cancelRequested then .cancelled else .stalled)
        row.processedAt now none = .ok t₁ ∧
      t₁.attempts id = t.attempts id ++ [recoveryEntry t now row] ∧
      ∀ row', t'.jobs.get? id = some row' →
        t'.attempts id = t.attempts id ++ [recoveryEntry t now row]

/-- The recovery lands, settles every expired job and leaves the jobs that recovering them one at a
time leaves. -/
def Recovers (t : Tables V) (returned : List JobId) (maxStalledCount : ℤ) (now : Millis) : Prop :=
  ∃ recovered t', recoverStalled t returned maxStalledCount now = .ok (recovered, t') ∧
    (∀ id row, t'.jobs.get? id = some row → expired now row = false) ∧
    EntersOnce t t' returned maxStalledCount now ∧
    t'.flowOutbox.map OutboxEntry.content = t.flowOutbox.map OutboxEntry.content ++
      (returned.filterMap t.jobs.get?).filterMap (recoveryReport maxStalledCount now) ∧
    ∃ recovered₁ t₁, recoverEach t returned maxStalledCount now = .ok (recovered₁, t₁) ∧
      ∀ id, t'.jobs.get? id = t₁.jobs.get? id

/-! ## When it does -/

/-- An expired job whose cancel was requested: the `UPDATE` makes it cancelled. -/
def requested (now : Millis) (row : JobRow V) : Bool := expired now row && row.cancelRequested

/-- The rule by which a requested cancel prunes the cancelled jobs of its name. -/
def cancelPolicy (t : Tables V) (now : Millis) (id : JobId) : Option (String × KeepStatePolicy) :=
  match t.jobs.get? id with
  | none => none
  | some row =>
    if requested now row then
      (row.keep.bind (keepPolicyFor · .cancelled)).map fun policy => (row.name, policy)
    else none

/-- Both statements of the policy have their parameters. -/
def Runs (policy : KeepStatePolicy) (now : Millis) : Prop :=
  (∀ age, policy.ageMs = some age → ∃ cutoff, timestamptz (keepCutoff now age) = .ok cutoff) ∧
  ∀ count, policy.count = some count → ∃ limit, limitOf count = .ok limit

def pastCutoff (policy : KeepStatePolicy) (now : Millis) (p : Peer) : Bool :=
  policy.ageMs.any fun age =>
    match timestamptz (keepCutoff now age) with
    | .ok cutoff => decide (p.finishedAt ≤ cutoff)
    | .error _ => false

def pastLimit (policy : KeepStatePolicy) (rank : ℕ) : Bool :=
  policy.count.any fun count =>
    match limitOf count with
    | .ok limit => limit.any fun n => decide (n ≤ rank)
    | .error _ => false

/-- What the two statements take, given a job and its rank. -/
def prunes (policy : KeepStatePolicy) (now : Millis) (p : Peer) (rank : ℕ) : Bool :=
  pastCutoff policy now p || pastLimit policy rank

/-- A job as it counts among the cancelled ones once the requested cancels are carried out. -/
def cancelPeer (t : Tables V) (now : Millis) (row : JobRow V) : Peer :=
  if requested now row then { peerOf t row with finishedAt := now } else peerOf t row

def cancelPeers (t : Tables V) (now : Millis) (name : String) : List Peer :=
  (t.jobs.values.filter fun row =>
    decide (row.name = name) && (decide (row.state = .cancelled) || requested now row)).map
      (cancelPeer t now)

/-- Whether settling the requested cancel `id` prunes the job `x`, when the jobs of `pending` are not
counted among the cancelled. -/
def prunedBy (t : Tables V) (now : Millis) (pending : List JobId) (id x : JobId) : Bool :=
  match cancelPolicy t now id with
  | none => false
  | some (name, policy) =>
    let peers := (cancelPeers t now name).filter fun p => decide (p.id ∉ pending)
    peers.any fun p =>
      decide (p.id = x) && !p.owed && prunes policy now p (rankIn Peer.newer peers p)

/-- No requested cancel is pruned by one before it, with all of them counted. -/
def Intact (t : Tables V) (ids : List JobId) (now : Millis) : Prop :=
  ∀ before id after, ids = before ++ id :: after → ∀ later ∈ after,
    prunedBy t now [] id later = false

/-- Every policy runs, no requested cancel is pruned by one before it, and what is pruned with every
requested cancel counted is also pruned with only the earlier ones counted. -/
structure Orderly (t : Tables V) (returned : List JobId) (now : Millis) : Prop where
  runs : ∀ id ∈ returned, ∀ name policy, cancelPolicy t now id = some (name, policy) →
    Runs policy now
  intact : Intact t returned now
  same : ∀ id ∈ returned, ∀ x, prunedBy t now [] id x = true →
    ∃ before id' after, returned = before ++ id' :: after ∧ prunedBy t now after id' x = true

/-! ## Retention, whatever the policy -/

/-- Rows are deleted, with what hangs on them, and nothing else changes. -/
structure Purges (t t' : Tables V) : Prop where
  jobs : ∀ {id row}, t'.jobs.get? id = some row → t.jobs.get? id = some row
  owes : ∀ {id row}, t'.jobs.get? id = some row → owesCascades t' id = owesCascades t id
  attempts : ∀ {id row}, t'.jobs.get? id = some row → t'.attempts id = t.attempts id
  outbox : t'.flowOutbox = t.flowOutbox

namespace Purges

variable {t t' t'' : Tables V}

theorem refl (t : Tables V) : Purges t t := ⟨id, fun _ => rfl, fun _ => rfl, rfl⟩

theorem trans (h : Purges t t') (h' : Purges t' t'') : Purges t t'' where
  jobs hrow := h.jobs (h'.jobs hrow)
  owes hrow := (h'.owes hrow).trans (h.owes (h'.jobs hrow))
  attempts hrow := (h'.attempts hrow).trans (h.attempts (h'.jobs hrow))
  outbox := h'.outbox.trans h.outbox

theorem purgeJobsWhere (t : Tables V) (predicate : JobRow V → Bool) :
    Purges t (Drizzle.purgeJobsWhere t predicate) := by
  have hget : ∀ {id row}, (Drizzle.purgeJobsWhere t predicate).jobs.get? id = some row →
      t.jobs.get? id = some row ∧ predicate row = false := by
    intro id row hrow
    rw [purgeJobsWhere_jobs, Option.filter_eq_some_iff] at hrow
    exact ⟨hrow.1, by simpa using hrow.2⟩
  have hany : ∀ {id row}, (Drizzle.purgeJobsWhere t predicate).jobs.get? id = some row →
      (t.jobs.get? id).any predicate = false := by
    intro id row hrow
    obtain ⟨hrow, hfalse⟩ := hget hrow
    rw [hrow, Option.any_some, hfalse]
  refine ⟨fun hrow => (hget hrow).1, fun hrow => purgeJobsWhere_owesCascades (hany hrow),
    fun hrow => ?_, rfl⟩
  simp [Drizzle.purgeJobsWhere, hany hrow]

end Purges

theorem pastCutoff_ages (policy : KeepStatePolicy) (now : Millis) : Ages (pastCutoff policy now) := by
  intro p q h hle
  obtain ⟨age, hage, hcutoff⟩ := (Option.any_eq_true _ _).mp h
  refine (Option.any_eq_true _ _).mpr ⟨age, hage, ?_⟩
  split at hcutoff
  · rw [decide_eq_true_eq] at hcutoff ⊢
    exact hle.trans hcutoff
  · cases hcutoff

theorem pastLimit_le {policy : KeepStatePolicy} {m n : ℕ} (h : pastLimit policy m = true)
    (hle : m ≤ n) : pastLimit policy n = true := by
  obtain ⟨count, hcount, hlimit⟩ := (Option.any_eq_true _ _).mp h
  refine (Option.any_eq_true _ _).mpr ⟨count, hcount, ?_⟩
  split at hlimit
  · obtain ⟨k, hk, hkm⟩ := (Option.any_eq_true _ _).mp hlimit
    rw [decide_eq_true_eq] at hkm
    exact (Option.any_eq_true _ _).mpr ⟨k, hk, by simpa using hkm.trans hle⟩
  · cases hlimit

theorem prunes_falls (policy : KeepStatePolicy) (now : Millis) : Group.Falls (prunes policy now) := by
  intro p q m n h hnewer hlt
  rw [prunes, Bool.or_eq_true] at h ⊢
  have hle : q.finishedAt ≤ p.finishedAt := by
    unfold Peer.newer at hnewer
    omega
  exact h.imp (fun hage => pastCutoff_ages policy now p q hage hle) fun hlimit =>
    pastLimit_le hlimit hlt.le

theorem applyAge_ok_iff {t : Tables V} {name : String} {state : TerminalState}
    {policy : KeepStatePolicy} {now : Millis} :
    (∃ t', applyAge t name state policy now = .ok t') ↔
      ∀ age, policy.ageMs = some age → ∃ cutoff, timestamptz (keepCutoff now age) = .ok cutoff := by
  unfold applyAge
  cases policy.ageMs with
  | none => simp
  | some age =>
    cases hcutoff : timestamptz (keepCutoff now age) <;> simp [Except.map, hcutoff]

theorem applyAge_spec {t t' : Tables V} {name : String} {state : TerminalState} {g : Group}
    (h : HoldsGroup t name state g) {policy : KeepStatePolicy} {now : Millis}
    (hok : applyAge t name state policy now = .ok t') :
    HoldsGroup t' name state (g.afterDue (pastCutoff policy now)) ∧
      Pruned t.jobs.get? t'.jobs.get? (g.Due (pastCutoff policy now)) ∧ Purges t t' := by
  unfold applyAge at hok
  cases hage : policy.ageMs with
  | none =>
    rw [hage] at hok
    obtain rfl := Except.ok.inj hok
    have hnot : ∀ p, pastCutoff policy now p = false := fun p => by simp [pastCutoff, hage]
    rw [Group.afterDue_of_not fun p _ => hnot p]
    exact ⟨h, Pruned.refl_of (Group.not_due hnot), .refl t⟩
  | some age =>
    rw [hage] at hok
    simp only at hok
    cases hcutoff : timestamptz (keepCutoff now age) with
    | error e =>
      rw [hcutoff] at hok
      cases hok
    | ok cutoff =>
      rw [hcutoff] at hok
      obtain rfl := Except.ok.inj hok
      have hpast : pastCutoff policy now = fun p => decide (p.finishedAt ≤ cutoff) := by
        funext p
        simp [pastCutoff, hage, hcutoff]
      rw [hpast]
      exact ⟨(h.purgeAged cutoff).1, (h.purgeAged cutoff).2, .purgeJobsWhere t _⟩

theorem applyCount_ok_iff {t : Tables V} {name : String} {state : TerminalState}
    {policy : KeepStatePolicy} :
    (∃ t', applyCount t name state policy = .ok t') ↔
      ∀ count, policy.count = some count → ∃ limit, limitOf count = .ok limit := by
  unfold applyCount
  cases policy.count with
  | none => simp
  | some count => cases hlimit : limitOf count <;> simp [Except.map, hlimit]

theorem applyCount_spec {t t' : Tables V} {name : String} {state : TerminalState} {g : Group}
    (h : HoldsGroup t name state g) {policy : KeepStatePolicy}
    (hok : applyCount t name state policy = .ok t') :
    Pruned t.jobs.get? t'.jobs.get? (g.Due fun p => pastLimit policy (g.rank p)) ∧ Purges t t' := by
  unfold applyCount at hok
  cases hcount : policy.count with
  | none =>
    rw [hcount] at hok
    obtain rfl := Except.ok.inj hok
    exact ⟨Pruned.refl_of (Group.not_due fun p => by simp [pastLimit, hcount]), .refl t⟩
  | some count =>
    rw [hcount] at hok
    simp only at hok
    cases hlimit : limitOf count with
    | error e =>
      rw [hlimit] at hok
      cases hok
    | ok limit =>
      rw [hlimit] at hok
      obtain rfl := Except.ok.inj hok
      have hpast : (fun p => pastLimit policy (g.rank p)) =
          fun p => limit.any fun n => decide (n ≤ g.rank p) := by
        funext p
        simp [pastLimit, hcount, hlimit]
      rw [hpast]
      exact ⟨h.purgeBeyond limit, .purgeJobsWhere t _⟩

/-- Retention with a policy at hand runs when both statements do. -/
theorem applyKeep_ok_iff (t : Tables V) (name : String) {state : TerminalState}
    {keep : Option KeepPolicy} {policy : KeepStatePolicy} (now : Millis)
    (hpolicy : keep.bind (keepPolicyFor · state) = some policy) :
    (∃ t', applyKeep t name state keep now = .ok t') ↔ Runs policy now := by
  rw [applyKeep, hpolicy]
  simp only
  cases hage : applyAge t name state policy now with
  | error e =>
    constructor
    · rintro ⟨t', ht'⟩
      cases ht'
    · intro hruns
      obtain ⟨t', ht'⟩ := applyAge_ok_iff.mpr hruns.1
      cases hage.symm.trans ht'
  | ok t₁ =>
    exact ⟨fun h => ⟨applyAge_ok_iff.mp ⟨t₁, hage⟩, applyCount_ok_iff.mp h⟩,
      fun hruns => applyCount_ok_iff.mpr hruns.2⟩

/-- And takes what the policy prunes. -/
theorem applyKeep_spec {t t' : Tables V} {name : String} {state : TerminalState} {g : Group}
    (h : HoldsGroup t name state g) {keep : Option KeepPolicy} {policy : KeepStatePolicy}
    {now : Millis} (hpolicy : keep.bind (keepPolicyFor · state) = some policy)
    (hok : applyKeep t name state keep now = .ok t') :
    Pruned t.jobs.get? t'.jobs.get? (g.Due fun p => prunes policy now p (g.rank p)) ∧
      Purges t t' := by
  rw [applyKeep, hpolicy] at hok
  simp only at hok
  cases hage : applyAge t name state policy now with
  | error e =>
    rw [hage] at hok
    cases hok
  | ok t₁ =>
    rw [hage] at hok
    obtain ⟨hholds, haged, hpurges⟩ := applyAge_spec h hage
    obtain ⟨hbeyond, hpurges'⟩ := applyCount_spec hholds hok
    refine ⟨(haged.trans hbeyond).congr fun id => ?_, hpurges.trans hpurges'⟩
    exact g.due_age_then_rank (pastCutoff_ages policy now) (pastLimit policy) id

theorem applyKeep_of_none {t : Tables V} {name : String} {state : TerminalState}
    {keep : Option KeepPolicy} {now : Millis} (hpolicy : keep.bind (keepPolicyFor · state) = none) :
    applyKeep t name state keep now = .ok t := by
  rw [applyKeep, hpolicy]

/-! ## The loop body -/

def rowReport (row : JobRow V) : Option (String × String × FlowChildReport V) :=
  match row.state.terminal? with
  | none => none
  | some outcome =>
    row.parent.map fun parent =>
      (parent.flowName, parent.parentStoreKey,
        { flowId := parent.flowId, childKey := parent.childKey, outcome, exit := row.exit,
          failedReason := row.failedReason })

def entryOf (t : Tables V) (now : Millis) (row : JobRow V) : AttemptRecord V where
  attempt := ((t.attempts row.id).map (·.attempt)).foldl max 0 + 1
  startedAt := row.processedAt
  finishedAt := now
  outcome := if row.state = .cancelled then .cancelled else .stalled
  exit := none

/-- The body up to retention, for a row that is there. -/
def enterRow (t : Tables V) (now : Millis) (row : JobRow V) : Tables V :=
  endRecovered
    { t with
      attempts := fun id =>
        if id = row.id then t.attempts id ++ [entryOf t now row] else t.attempts id }
    row now

@[simp] theorem enterRow_jobs (t : Tables V) (now : Millis) (row : JobRow V) :
    (enterRow t now row).jobs = t.jobs := by
  unfold enterRow endRecovered
  split
  · rw [(releaseDedupe_frame ..).1, (appendOutbox_frame ..).1]
  · rfl

@[simp] theorem enterRow_owesCascades (t : Tables V) (now : Millis) (row : JobRow V) (id : JobId) :
    owesCascades (enterRow t now row) id = owesCascades t id := by
  have hrows : (enterRow t now row).flowChildren = t.flowChildren := by
    unfold enterRow endRecovered
    split
    · rw [(releaseDedupe_frame ..).2.2.1, (appendOutbox_frame ..).2.2]
    · rfl
  rw [owesCascades, hrows]
  rfl

theorem enterRow_attempts (t : Tables V) (now : Millis) (row : JobRow V) (id : JobId) :
    (enterRow t now row).attempts id =
      if id = row.id then t.attempts id ++ [entryOf t now row] else t.attempts id := by
  unfold enterRow endRecovered
  split
  · rw [(releaseDedupe_frame ..).2.1, (appendOutbox_frame ..).2.1]
  · rfl

/-- The states an expired row can be flipped to. -/
def Flipped (row : JobRow V) : Prop :=
  row.state = .cancelled ∨ row.state = .failed ∨ row.state = .waiting

theorem enterRow_outbox (t : Tables V) (now : Millis) {row : JobRow V} (h : Flipped row) :
    (enterRow t now row).flowOutbox.map OutboxEntry.content =
      t.flowOutbox.map OutboxEntry.content ++ (rowReport row).toList := by
  unfold enterRow endRecovered
  rcases h with h | h | h
  · simp only [h]
    rw [if_pos (by simp), (releaseDedupe_frame ..).2.2.2]
    cases hparent : row.parent <;>
      simp [appendOutbox, rowReport, h, hparent, JobState.terminal?, OutboxEntry.content]
  · simp only [h]
    rw [if_pos (by simp), (releaseDedupe_frame ..).2.2.2]
    cases hparent : row.parent <;>
      simp [appendOutbox, rowReport, h, hparent, JobState.terminal?, OutboxEntry.content]
  · simp [h, rowReport, JobState.terminal?]

theorem insertAttempt_eq (t : Tables V) (now : Millis) (row : JobRow V) :
    insertAttempt t row.id (if row.state = .cancelled then .cancelled else .stalled)
        row.processedAt now none =
      if t.jobs.has row.id then
        .ok { t with
          attempts := fun id =>
            if id = row.id then t.attempts id ++ [entryOf t now row] else t.attempts id }
      else .error .foreignKeyViolation := rfl

/-- A row that is gone violates the foreign key. -/
theorem settleRecovered_of_none {acc : List Recovered × Tables V} {row : JobRow V} {now : Millis}
    (h : acc.2.jobs.get? row.id = none) :
    settleRecovered now acc row = .error .foreignKeyViolation := by
  rw [settleRecovered, insertAttempt_eq, JsMap.has_eq_false.mpr h]
  rfl

theorem settleRecovered_of_some {acc : List Recovered × Tables V} {row row' : JobRow V}
    {now : Millis} (h : acc.2.jobs.get? row.id = some row') :
    settleRecovered now acc row =
      if row.state = .cancelled then
        (applyKeep (enterRow acc.2 now row) row.name .cancelled row.keep now).map fun t => (acc.1, t)
      else .ok (acc.1 ++ [⟨row.id, decide (row.state = .failed)⟩], enterRow acc.2 now row) := by
  rw [settleRecovered, insertAttempt_eq, JsMap.has_eq_true.mpr ⟨row', h⟩]
  rfl

/-! ## The flip -/

/-- What the `UPDATE` makes of a row. -/
def flipRow (maxStalledCount : ℤ) (now : Millis) (row : JobRow V) : JobRow V :=
  if expired now row then recoverRow maxStalledCount now row else row

section Flip

variable {maxStalledCount : ℤ} {now : Millis} {row : JobRow V}

theorem active_of_expired (h : expired now row = true) : row.state = .active := by
  rw [expired, Bool.and_eq_true, decide_eq_true_eq] at h
  exact h.1

theorem recoverRow_flipped (maxStalledCount : ℤ) (now : Millis) (row : JobRow V) :
    Flipped (recoverRow maxStalledCount now row) := by
  unfold Flipped recoverRow
  cases row.cancelRequested with
  | true => exact .inl rfl
  | false =>
    cases decide (maxStalledCount < (row.stalledCount + 1 : ℕ)) with
    | true => exact .inr (.inl rfl)
    | false => exact .inr (.inr rfl)

theorem recoverRow_cancelled :
    (recoverRow maxStalledCount now row).state = .cancelled ↔ row.cancelRequested = true := by
  unfold recoverRow
  cases row.cancelRequested with
  | true => simp
  | false =>
    simp only [Bool.false_eq_true, if_false, iff_false]
    split <;> simp

theorem flipRow_not_expired (maxStalledCount : ℤ) (now : Millis) (row : JobRow V) :
    expired now (flipRow maxStalledCount now row) = false := by
  unfold flipRow
  split
  · rw [Bool.eq_false_iff]
    intro h
    have hactive := active_of_expired h
    rcases recoverRow_flipped maxStalledCount now row with h | h | h <;> rw [h] at hactive <;>
      cases hactive
  · rename_i h
    simpa using h

theorem flipRow_cancelled (maxStalledCount : ℤ) : (flipRow maxStalledCount now row).state = .cancelled ↔
    row.state = .cancelled ∨ requested now row = true := by
  unfold flipRow requested
  split
  · rename_i h
    rw [recoverRow_cancelled, h, active_of_expired h]
    simp
  · rename_i h
    simp [h]

@[simp] theorem flipRow_id : (flipRow maxStalledCount now row).id = row.id := by
  unfold flipRow
  split <;> rfl

@[simp] theorem flipRow_name : (flipRow maxStalledCount now row).name = row.name := by
  unfold flipRow
  split <;> rfl

/-- A cancelled row counts as its pre-state says. -/
theorem peerOf_flipRow {t s : Tables V} (h : (flipRow maxStalledCount now row).state = .cancelled)
    (howes : owesCascades s row.id = owesCascades t row.id) :
    peerOf s (flipRow maxStalledCount now row) = cancelPeer t now row := by
  rw [flipRow_cancelled] at h
  unfold cancelPeer
  by_cases hrequested : requested now row = true
  · rw [if_pos hrequested]
    rw [requested, Bool.and_eq_true] at hrequested
    rw [flipRow, if_pos hrequested.1]
    simp [peerOf, recoverRow, hrequested.2, howes]
  · rw [if_neg hrequested]
    have hnot : ¬expired now row = true := fun hexpired => by
      have hcancelled := h.resolve_right hrequested
      rw [active_of_expired hexpired] at hcancelled
      cases hcancelled
    rw [flipRow, if_neg hnot, peerOf, peerOf, howes]

end Flip

theorem flipExpired_jobs (t : Tables V) (maxStalledCount : ℤ) (now : Millis) (id : JobId) :
    (flipExpired t maxStalledCount now).jobs.get? id =
      (t.jobs.get? id).map (flipRow maxStalledCount now) := by
  rw [flipExpired, JsMap.get?_mapValues]
  rfl

theorem flipJob_jobs (t : Tables V) (id : JobId) (maxStalledCount : ℤ) (now : Millis)
    (id' : JobId) :
    (flipJob t id maxStalledCount now).jobs.get? id' =
      if id' = id then (t.jobs.get? id').map (flipRow maxStalledCount now) else t.jobs.get? id' := by
  rw [flipJob, JsMap.get?_modify]
  split
  · rename_i h
    rw [h]
    rfl
  · rfl

/-! ## The group of cancelled jobs -/

section Group

variable {t : Tables V} {now : Millis}

theorem mem_cancelPeers (h : t.WellFormed) {name : String} {p : Peer} :
    p ∈ cancelPeers t now name ↔ ∃ row, t.jobs.get? p.id = some row ∧ row.name = name ∧
      (row.state = .cancelled ∨ requested now row = true) ∧ cancelPeer t now row = p := by
  rw [cancelPeers, List.mem_map]
  simp only [List.mem_filter, JsMap.mem_values, Bool.and_eq_true, Bool.or_eq_true,
    decide_eq_true_eq]
  have hid : ∀ row : JobRow V, (cancelPeer t now row).id = row.id := fun row => by
    unfold cancelPeer
    split <;> rfl
  constructor
  · rintro ⟨row, ⟨⟨id, hrow⟩, hname, hcancelled⟩, rfl⟩
    refine ⟨row, ?_, hname, hcancelled, rfl⟩
    rw [hid, h.keyed id row hrow]
    exact hrow
  · rintro ⟨row, hrow, hname, hcancelled, hpeer⟩
    exact ⟨row, ⟨⟨_, hrow⟩, hname, hcancelled⟩, hpeer⟩

theorem nodup_map_cancelPeers {α : Type} {name : String} (f : Peer → α) (f' : JobRow V → α)
    (hf : ∀ row, f (cancelPeer t now row) = f' row) (h : (t.jobs.values.map f').Nodup) :
    ((cancelPeers t now name).map f).Nodup := by
  have hmap : (cancelPeers t now name).map f = (t.jobs.values.filter fun row =>
      decide (row.name = name) && (decide (row.state = .cancelled) || requested now row)).map
        f' := by
    rw [cancelPeers, List.map_map]
    exact List.map_congr_left fun row _ => hf row
  rw [hmap]
  exact h.sublist (List.filter_sublist.map _)

/-- The cancelled jobs of a name once the requested cancels are carried out. -/
def cancelGroup (h : t.WellFormed) (now : Millis) (name : String) : Group where
  peers := cancelPeers t now name
  ids := nodup_map_cancelPeers (·.id) (·.id) (fun row => by unfold cancelPeer; split <;> rfl)
    (JsMap.nodup_values_map h.keyed)
  seqs := nodup_map_cancelPeers (·.seq) (·.seq) (fun row => by unfold cancelPeer; split <;> rfl)
    h.seqs

/-- Those of them that are not pending. -/
def visible (h : t.WellFormed) (now : Millis) (name : String) (pending : List JobId) : Group :=
  (cancelGroup h now name).keepWhere fun p => decide (p.id ∉ pending)

theorem prunedBy_eq (h : t.WellFormed) {pending : List JobId} {id x : JobId} {name : String}
    {policy : KeepStatePolicy} (hpolicy : cancelPolicy t now id = some (name, policy)) :
    prunedBy t now pending id x = (visible h now name pending).hits (prunes policy now) x := by
  rw [prunedBy, hpolicy]
  rfl

end Group

/-! ## Midway -/

/-- The tables while the loop runs: the rows of `pending` are as they were, those of `done` are
settled, and the jobs that are `gone` were pruned. -/
structure Midway (t : Tables V) (maxStalledCount : ℤ) (now : Millis) (pending done : List JobId)
    (gone : JobId → Bool) (s : Tables V) : Prop where
  unflipped : ∀ id ∈ pending, ∃ row, t.jobs.get? id = some row ∧ expired now row = true
  jobs : ∀ id, s.jobs.get? id =
    if gone id then none
    else if id ∈ pending then t.jobs.get? id
    else (t.jobs.get? id).map (flipRow maxStalledCount now)
  owes : ∀ {id row}, s.jobs.get? id = some row → owesCascades s id = owesCascades t id
  ledger : ∀ {id row row₀}, s.jobs.get? id = some row → t.jobs.get? id = some row₀ →
    s.attempts id =
      if id ∈ done then t.attempts id ++ [recoveryEntry t now row₀] else t.attempts id
  outbox : s.flowOutbox.map OutboxEntry.content = t.flowOutbox.map OutboxEntry.content ++
    (done.filterMap t.jobs.get?).filterMap (recoveryReport maxStalledCount now)

namespace Midway

variable {t s : Tables V} {maxStalledCount : ℤ} {now : Millis} {pending done : List JobId}
  {gone : JobId → Bool}

/-- A row that is there comes from the row it was. -/
theorem row_of (h : Midway t maxStalledCount now pending done gone s) {id : JobId} {row : JobRow V}
    (hrow : s.jobs.get? id = some row) :
    gone id = false ∧ ∃ row₀, t.jobs.get? id = some row₀ ∧
      row = if id ∈ pending then row₀ else flipRow maxStalledCount now row₀ := by
  rw [h.jobs] at hrow
  split at hrow
  · cases hrow
  · rename_i hgone
    refine ⟨by simpa using hgone, ?_⟩
    split at hrow
    · rename_i hpending
      exact ⟨row, hrow, (if_pos hpending).symm⟩
    · rename_i hpending
      obtain ⟨row₀, hrow₀, rfl⟩ := Option.map_eq_some_iff.mp hrow
      exact ⟨row₀, hrow₀, (if_neg hpending).symm⟩

theorem keyed (h : Midway t maxStalledCount now pending done gone s) (hwf : t.WellFormed)
    (id : JobId) (row : JobRow V) (hrow : s.jobs.get? id = some row) : row.id = id := by
  obtain ⟨_, row₀, hrow₀, rfl⟩ := h.row_of hrow
  rw [← hwf.keyed id row₀ hrow₀]
  split
  · rfl
  · exact flipRow_id

/-- A cancelled row that is there is not pending, and its pre-state is cancelled or to be. -/
theorem cancelled_of (h : Midway t maxStalledCount now pending done gone s) {id : JobId}
    {row : JobRow V} (hrow : s.jobs.get? id = some row) (hstate : row.state = .cancelled) :
    gone id = false ∧ id ∉ pending ∧
      ∃ row₀, t.jobs.get? id = some row₀ ∧ row = flipRow maxStalledCount now row₀ := by
  obtain ⟨hgone, row₀, hrow₀, rfl⟩ := h.row_of hrow
  by_cases hpending : id ∈ pending
  · rw [if_pos hpending] at hstate
    obtain ⟨row₁, hrow₁, hexpired⟩ := h.unflipped id hpending
    obtain rfl := Option.some.inj (hrow₀.symm.trans hrow₁)
    rw [active_of_expired hexpired] at hstate
    cases hstate
  · exact ⟨hgone, hpending, row₀, hrow₀, if_neg hpending⟩

/-- Retention meets the visible cancelled jobs that are not gone. -/
theorem holds (h : Midway t maxStalledCount now pending done gone s) (hwf : t.WellFormed)
    (name : String) :
    HoldsGroup s name .cancelled
      ((visible hwf now name pending).keepWhere fun p => !gone p.id) := by
  have hkeyed := h.keyed hwf
  have hmem : ∀ row, row ∈ terminalJobs s name .cancelled ↔
      s.jobs.get? row.id = some row ∧ row.name = name ∧ row.state = .cancelled := by
    intro row
    rw [terminalJobs, List.mem_filter, JsMap.mem_values, inGroup, Bool.and_eq_true,
      decide_eq_true_eq, decide_eq_true_eq]
    constructor
    · rintro ⟨⟨id, hrow⟩, hgroup⟩
      obtain rfl := hkeyed id row hrow
      exact ⟨hrow, hgroup⟩
    · rintro ⟨hrow, hgroup⟩
      exact ⟨⟨_, hrow⟩, hgroup⟩
  refine ⟨hkeyed, ?_, ?_⟩
  · intro row hrow
    obtain ⟨hrow, _, hstate⟩ := (hmem row).mp hrow
    obtain ⟨_, _, row₀, hrow₀, rfl⟩ := h.cancelled_of hrow hstate
    unfold flipRow at hstate ⊢
    split
    · rename_i hexpired
      rw [if_pos hexpired] at hstate
      simp [recoverRow, recoverRow_cancelled.mp hstate]
    · rename_i hexpired
      rw [if_neg hexpired] at hstate
      exact hwf.finished _ row₀ hrow₀ hstate
  · apply Group.listed_of_mem
    · exact (JsMap.nodup_values_map hkeyed).sublist (List.filter_sublist.map _)
    · intro p
      simp only [visible, Group.keepWhere, List.mem_filter, cancelGroup, mem_cancelPeers hwf,
        decide_eq_true_eq, Bool.not_eq_true']
      constructor
      · rintro ⟨row, hrow, rfl⟩
        obtain ⟨hrow, hname, hstate⟩ := (hmem row).mp hrow
        obtain ⟨hgone, hpending, row₀, hrow₀, hflip⟩ := h.cancelled_of hrow hstate
        have howes : owesCascades s row₀.id = owesCascades t row₀.id := by
          rw [hwf.keyed _ row₀ hrow₀]
          exact h.owes hrow
        subst hflip
        refine ⟨⟨⟨row₀, hrow₀, ?_, (flipRow_cancelled _).mp hstate, ?_⟩, hpending⟩, hgone⟩
        · rw [← hname, flipRow_name]
        · exact (peerOf_flipRow hstate howes).symm
      · rintro ⟨⟨⟨row₀, hrow₀, hname, hcancelled, hpeer⟩, hpending⟩, hgone⟩
        have hrow : s.jobs.get? p.id = some (flipRow maxStalledCount now row₀) := by
          rw [h.jobs, hgone, if_neg hpending, hrow₀]
          rfl
        have hid := hwf.keyed _ row₀ hrow₀
        have hstate := (flipRow_cancelled maxStalledCount).mpr hcancelled
        have howes : owesCascades s row₀.id = owesCascades t row₀.id := by
          rw [hid]
          exact h.owes hrow
        refine ⟨flipRow maxStalledCount now row₀, (hmem _).mpr ⟨?_, ?_, hstate⟩, ?_⟩
        · rw [flipRow_id, hid]
          exact hrow
        · rw [flipRow_name, hname]
        · rw [peerOf_flipRow hstate howes, hpeer]

/-- The step's own `UPDATE`: one more row is flipped, or none is left to flip. -/
theorem flip {id : JobId} {rest : List JobId}
    (h : Midway t maxStalledCount now pending done gone s)
    (hpending : pending = rest ∨ pending = id :: rest) (hid : id ∉ rest) :
    Midway t maxStalledCount now rest done gone (flipJob s id maxStalledCount now) := by
  have hsub : ∀ x, x ∈ rest → x ∈ pending := by
    rintro x hx
    rcases hpending with rfl | rfl
    · exact hx
    · exact List.mem_cons_of_mem id hx
  have hother : ∀ x, x ≠ id → (x ∈ pending ↔ x ∈ rest) := by
    intro x hx
    rcases hpending with rfl | rfl
    · rfl
    · simp [hx]
  have htwice : ∀ row : JobRow V, flipRow maxStalledCount now (flipRow maxStalledCount now row) =
      flipRow maxStalledCount now row := by
    intro row
    rw [flipRow, flipRow_not_expired]
    rfl
  have hsome : ∀ {x row}, (flipJob s id maxStalledCount now).jobs.get? x = some row →
      ∃ row', s.jobs.get? x = some row' := by
    intro x row hrow
    rw [flipJob_jobs] at hrow
    split at hrow
    · obtain ⟨row', hrow', _⟩ := Option.map_eq_some_iff.mp hrow
      exact ⟨row', hrow'⟩
    · exact ⟨row, hrow⟩
  refine ⟨fun x hx => h.unflipped x (hsub x hx), fun x => ?_, fun hrow => ?_,
    fun hrow hrow₀ => ?_, h.outbox⟩
  · rw [flipJob_jobs, h.jobs]
    by_cases hx : x = id
    · subst hx
      rw [if_pos rfl, if_neg hid]
      cases gone x with
      | true => rfl
      | false =>
        simp only [Bool.false_eq_true, if_false]
        split
        · rfl
        · rw [Option.map_map]
          exact congrArg (Option.map · _) (funext htwice)
    · rw [if_neg hx]
      simp only [hother x hx]
  · obtain ⟨row', hrow'⟩ := hsome hrow
    exact h.owes hrow'
  · obtain ⟨row', hrow'⟩ := hsome hrow
    exact h.ledger hrow' hrow₀

/-- Retention in the loop: what it prunes joins what is gone. -/
theorem pruned {gone' : JobId → Bool} {s' : Tables V} {doomed : JobId → Prop}
    (h : Midway t maxStalledCount now pending done gone s)
    (hpruned : Pruned s.jobs.get? s'.jobs.get? doomed) (hpurges : Purges s s')
    (hgone : ∀ id, gone' id = true ↔ gone id = true ∨ doomed id) :
    Midway t maxStalledCount now pending done gone' s' where
  unflipped := h.unflipped
  jobs id := by
    by_cases hdoomed : doomed id
    · rw [(hpruned id).1 hdoomed, (hgone id).mpr (.inr hdoomed)]
      rfl
    · have hsame : gone' id = gone id := by
        rw [Bool.eq_iff_iff, hgone]
        exact or_iff_left hdoomed
      rw [(hpruned id).2 hdoomed, hsame]
      exact h.jobs id
  owes hrow := (hpurges.owes hrow).trans (h.owes (hpurges.jobs hrow))
  ledger hrow hrow₀ := (hpurges.attempts hrow).trans (h.ledger (hpurges.jobs hrow) hrow₀)
  outbox := by rw [hpurges.outbox, h.outbox]

section Settle

variable (h : Midway t maxStalledCount now pending done gone s) (hwf : t.WellFormed) {id : JobId}
  {row₀ : JobRow V} (hrow₀ : t.jobs.get? id = some row₀) (hexpired : expired now row₀ = true)
  (hpending : id ∉ pending) (hdone : id ∉ done)

include hrow₀ hexpired in
/-- The rule of the step, from the row it settles. -/
theorem cancelPolicy_eq (maxStalledCount : ℤ) : cancelPolicy t now id =
    if (flipRow maxStalledCount now row₀).state = .cancelled then
      ((flipRow maxStalledCount now row₀).keep.bind (keepPolicyFor · .cancelled)).map
        fun policy => (row₀.name, policy)
    else none := by
  have hkeep : (flipRow maxStalledCount now row₀).keep = row₀.keep := by
    rw [flipRow, if_pos hexpired]
    rfl
  have hstate : (flipRow maxStalledCount now row₀).state = .cancelled ↔
      requested now row₀ = true := by
    rw [flipRow_cancelled, active_of_expired hexpired]
    simp
  rw [cancelPolicy, hrow₀, hkeep]
  simp only [hstate]

include h hrow₀ hpending in
theorem get?_of_not_gone (hgone : gone id = false) :
    s.jobs.get? id = some (flipRow maxStalledCount now row₀) := by
  rw [h.jobs, hgone, if_neg hpending, hrow₀]
  rfl

include h hwf hrow₀ hpending in
/-- The step, written out. -/
theorem settle_eq (recovered : List Recovered) :
    settleRecovered now (recovered, s) (flipRow maxStalledCount now row₀) =
      if gone id then .error .foreignKeyViolation
      else if (flipRow maxStalledCount now row₀).state = .cancelled then
        (applyKeep (enterRow s now (flipRow maxStalledCount now row₀)) row₀.name .cancelled
          (flipRow maxStalledCount now row₀).keep now).map fun t => (recovered, t)
      else .ok (recovered ++ [⟨id, decide ((flipRow maxStalledCount now row₀).state = .failed)⟩],
        enterRow s now (flipRow maxStalledCount now row₀)) := by
  have hid : (flipRow maxStalledCount now row₀).id = id := flipRow_id.trans (hwf.keyed id row₀ hrow₀)
  cases hgone : gone id with
  | true =>
    apply settleRecovered_of_none
    rw [hid, h.jobs, hgone]
    rfl
  | false =>
    have hsome := h.get?_of_not_gone hrow₀ hpending hgone
    rw [← hid] at hsome
    rw [settleRecovered_of_some hsome, hid, flipRow_name]
    rfl

include h hwf hrow₀ hexpired hpending

/-- A step lands when its job is still there and its policy runs. -/
theorem settle_ok_iff (recovered : List Recovered) :
    (∃ r, settleRecovered now (recovered, s) (flipRow maxStalledCount now row₀) = .ok r) ↔
      gone id = false ∧ ∀ name policy, cancelPolicy t now id = some (name, policy) →
        Runs policy now := by
  rw [h.settle_eq hwf hrow₀ hpending, cancelPolicy_eq hrow₀ hexpired maxStalledCount]
  cases gone id with
  | true => simp
  | false =>
    simp only [Bool.false_eq_true, if_false, true_and]
    split
    · cases hpolicy : (flipRow maxStalledCount now row₀).keep.bind (keepPolicyFor · .cancelled) with
      | none => simp [applyKeep_of_none hpolicy, Except.map]
      | some policy =>
        have hruns := applyKeep_ok_iff (enterRow s now (flipRow maxStalledCount now row₀))
          row₀.name now hpolicy
        simp only [Option.map_some, Option.some.injEq, Prod.mk.injEq]
        constructor
        · rintro ⟨r, hr⟩ name policy' ⟨_, rfl⟩
          apply hruns.mp
          cases hkeep : applyKeep (enterRow s now (flipRow maxStalledCount now row₀)) row₀.name
              .cancelled (flipRow maxStalledCount now row₀).keep now with
          | error e =>
            rw [hkeep] at hr
            cases hr
          | ok t' => exact ⟨t', rfl⟩
        · intro hall
          obtain ⟨t', ht'⟩ := hruns.mpr (hall _ _ ⟨rfl, rfl⟩)
          exact ⟨_, by rw [ht']; rfl⟩
    · simp

include hdone in
/-- Before retention the job has its ledger entry and its report. -/
theorem enter (hgone : gone id = false) :
    Midway t maxStalledCount now pending (done ++ [id]) gone
      (enterRow s now (flipRow maxStalledCount now row₀)) := by
  have hid : (flipRow maxStalledCount now row₀).id = id := flipRow_id.trans (hwf.keyed id row₀ hrow₀)
  have hflip : flipRow maxStalledCount now row₀ = recoverRow maxStalledCount now row₀ := if_pos hexpired
  have hsome := h.get?_of_not_gone hrow₀ hpending hgone
  have hbefore : s.attempts id = t.attempts id := by
    rw [h.ledger hsome hrow₀, if_neg hdone]
  have hentry : entryOf s now (flipRow maxStalledCount now row₀) = recoveryEntry t now row₀ := by
    have hstate : (flipRow maxStalledCount now row₀).state = .cancelled ↔
        row₀.cancelRequested = true := by rw [hflip, recoverRow_cancelled]
    have hclaim : (flipRow maxStalledCount now row₀).processedAt = row₀.processedAt := by
      rw [hflip]
      rfl
    unfold entryOf recoveryEntry
    rw [hid, hwf.keyed id row₀ hrow₀, hbefore]
    simp only [hstate, hclaim]
  refine ⟨h.unflipped, fun x => ?_, fun hrow => ?_, fun {x row row₁} hrow hrow₁ => ?_, ?_⟩
  · rw [enterRow_jobs]
    exact h.jobs x
  · rw [enterRow_jobs] at hrow
    rw [enterRow_owesCascades]
    exact h.owes hrow
  · rw [enterRow_jobs] at hrow
    rw [enterRow_attempts, hid, hentry, h.ledger hrow hrow₁]
    by_cases hx : x = id
    · subst hx
      obtain rfl := Option.some.inj (hrow₀.symm.trans hrow₁)
      simp [hdone]
    · simp [hx]
  · have hreport : rowReport (flipRow maxStalledCount now row₀) =
        recoveryReport maxStalledCount now row₀ := by rw [hflip]; rfl
    rw [enterRow_outbox s now (hflip ▸ recoverRow_flipped maxStalledCount now row₀), h.outbox,
      hreport]
    cases hsome : recoveryReport maxStalledCount now row₀ <;>
      simp [List.filterMap_append, hrow₀, hsome]

include hdone in
/-- What a step that lands leaves. -/
theorem settle_ok (hclosed : ∀ name, (visible hwf now name pending).Closed gone)
    {recovered : List Recovered} {r : List Recovered × Tables V}
    (hok : settleRecovered now (recovered, s) (flipRow maxStalledCount now row₀) = .ok r) :
    Midway t maxStalledCount now pending (done ++ [id])
      (fun x => gone x || prunedBy t now pending id x) r.2 := by
  have hgone := ((h.settle_ok_iff hwf hrow₀ hexpired hpending recovered).mp ⟨r, hok⟩).1
  have henter := h.enter hwf hrow₀ hexpired hpending hdone hgone
  have hsame : cancelPolicy t now id = none →
      (fun x => gone x || prunedBy t now pending id x) = gone := by
    intro hnone
    funext x
    rw [prunedBy, hnone, Bool.or_false]
  have hpolicy := cancelPolicy_eq hrow₀ hexpired maxStalledCount
  rw [h.settle_eq hwf hrow₀ hpending, hgone] at hok
  simp only [Bool.false_eq_true, if_false] at hok
  split at hok
  · rename_i hstate
    rw [if_pos hstate] at hpolicy
    cases hkeep : (flipRow maxStalledCount now row₀).keep.bind (keepPolicyFor · .cancelled) with
    | none =>
      rw [applyKeep_of_none hkeep] at hok
      rw [hkeep] at hpolicy
      obtain rfl := Except.ok.inj hok
      rw [hsame hpolicy]
      exact henter
    | some policy =>
      rw [hkeep] at hpolicy
      cases hrun : applyKeep (enterRow s now (flipRow maxStalledCount now row₀)) row₀.name
          .cancelled (flipRow maxStalledCount now row₀).keep now with
      | error e =>
        rw [hrun] at hok
        cases hok
      | ok t' =>
        rw [hrun] at hok
        obtain rfl := Except.ok.inj hok
        obtain ⟨hpruned, hpurges⟩ := applyKeep_spec (henter.holds hwf row₀.name) hkeep hrun
        apply henter.pruned hpruned hpurges
        intro x
        rw [Group.due_of_closed (hclosed row₀.name), prunedBy_eq hwf hpolicy, Bool.or_eq_true]
        cases gone x <;> simp
  · rename_i hstate
    rw [if_neg hstate] at hpolicy
    obtain rfl := Except.ok.inj hok
    rw [hsame hpolicy]
    exact henter

end Settle

end Midway

end EffectMq.Drizzle
