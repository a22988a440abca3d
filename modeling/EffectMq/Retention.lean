import Mathlib.Data.Rat.Floor
import EffectMq.JobStore
import EffectMq.Library.Ranks
import EffectMq.Library.Rounding

/-! # Retention

The keep rule on the terminal jobs of one name and state, apart from any driver: a job goes when it
owes no cascades and is past the age, or ranks beyond the count among all of them. Exempt jobs hold
their places in the ranking.

`due_age_then_rank` is what lets a driver apply the two halves one after the other: a job the
age spares is outranked only by jobs the age spares.
-/

namespace EffectMq
set_option autoImplicit false
set_option maxHeartbeats 250000

/-- The policy that governs one terminal state: its own, or the flat one that stands for all. -/
def KeepPolicy.governing (keep : KeepPolicy) (state : TerminalState) : Option KeepStatePolicy :=
  match keep.of state with
  | some policy => some policy
  | none =>
    if keep.completed = none ∧ keep.failed = none ∧ keep.cancelled = none then keep.flat else none

/-- A policy that was stored as JSON has lost the keys whose value is undefined. A flat one that
loses both keys governs nothing, as one without rules does. -/
theorem governing_of_stored {keep : KeepPolicy} {state : TerminalState}
    {policy : Option KeepStatePolicy}
    (h : policy = match keep.of state with
      | some policy => some policy
      | none =>
        if keep.completed = none ∧ keep.failed = none ∧ keep.cancelled = none then
          keep.flat.filter fun policy => policy.count.isSome || policy.ageMs.isSome
        else none) :
    keep.governing state = policy ∨ policy = none ∧ keep.governing state = some ⟨none, none⟩ := by
  subst h
  unfold KeepPolicy.governing
  cases keep.of state with
  | some policy => exact .inl rfl
  | none =>
    by_cases hflat : keep.completed = none ∧ keep.failed = none ∧ keep.cancelled = none
    · obtain ⟨completed, failed, cancelled, flat⟩ := keep
      cases flat with
      | none => simp
      | some policy =>
        obtain ⟨count, ageMs⟩ := policy
        cases count <;> cases ageMs <;> simp_all [Option.filter]
    · simp [hflat]

/-- A count that rounds to the number of jobs it stands for, and that number fits a `bigint`. -/
def CountFits (q : ℚ) : Prop := -1 / 2 ≤ q ∧ (q < 0 ∨ Rounding.Down q) ∧ ⌊q⌋ < 2 ^ 63

def KeepStatePolicy.KeepsNone (policy : KeepStatePolicy) : Prop :=
  ∃ q : ℚ, policy.count = some (.finite q) ∧ q < 1

/-- The policies that every driver takes at a clock reading: a count is a number that fits; an age is
a number and its cutoff a time that both `Date` and `timestamptz` have, and whole if it lies before
1970. Where no job is kept a fraction there does not matter. -/
def KeepStatePolicy.Portable (policy : KeepStatePolicy) (now : ℤ) : Prop :=
  (∀ count, policy.count = some count → ∃ q : ℚ, count = .finite q ∧ CountFits q) ∧
  ∀ age, policy.ageMs = some age → ∃ q : ℚ, age = .finite q ∧
    |(now : ℚ)| ≤ 8640000000000000 ∧ -210866803200001 < now - q ∧ now - q ≤ 8640000000000000 ∧
    (0 ≤ now - q ∨ (now - q).den = 1 ∨ policy.KeepsNone)

/-! ## Groups -/

/-- A terminal job as retention sees it. -/
structure Peer where
  id : JobId
  finishedAt : ℤ
  seq : ℕ
  owed : Bool
  deriving DecidableEq

namespace Peer

/-- Strictly newer: by `finishedAt`, then by `seq`. -/
def newer (a b : Peer) : Prop :=
  b.finishedAt < a.finishedAt ∨ b.finishedAt = a.finishedAt ∧ b.seq < a.seq

instance : DecidableRel newer := fun _ _ => inferInstanceAs (Decidable (_ ∨ _))

theorem newer_asymm (a b : Peer) (h : a.newer b) : ¬b.newer a := by
  unfold newer at *
  omega

end Peer

/-- The terminal jobs of one name and state. -/
structure Group where
  peers : List Peer
  ids : (peers.map (·.id)).Nodup
  seqs : (peers.map (·.seq)).Nodup

/-- `finishedAt <= now - age`, when the policy has an age. -/
def KeepStatePolicy.pastAge (policy : KeepStatePolicy) (now : ℤ) (p : Peer) : Bool :=
  policy.ageMs.any fun age => age.reached p.finishedAt now

/-- `max(0, floor(count)) <= rank`, with 0 for `NaN`. -/
def JsNumber.exceededBy (count : JsNumber) (rank : ℕ) : Bool :=
  match count with
  | .finite q => decide (max 0 ⌊q⌋ ≤ (rank : ℤ))
  | .negInf | .nan => true
  | .posInf => false

theorem toNat_floor_le (q : ℚ) (n : ℕ) : ⌊max 0 q⌋.toNat ≤ n ↔ max 0 ⌊q⌋ ≤ (n : ℤ) := by
  have hfloor : ⌊max 0 q⌋ = max 0 ⌊q⌋ := by
    rcases le_total 0 q with h | h
    · rw [max_eq_right h, max_eq_right (Int.floor_nonneg.mpr h)]
    · rw [max_eq_left h, max_eq_left (Int.floor_nonpos h)]
      rfl
  rw [hfloor]
  omega

theorem JsNumber.reached_of_le {age : JsNumber} {t t' now : ℤ} (h : age.reached t now = true)
    (hle : t' ≤ t) : age.reached t' now = true := by
  cases age with
  | finite q =>
    have hcast : (t' : ℚ) ≤ t := by exact_mod_cast hle
    simp only [reached, decide_eq_true_eq] at h ⊢
    exact hcast.trans h
  | negInf => rfl
  | posInf | nan => simp [reached] at h

/-- An age rule: what is older than an aged job is aged. -/
def Ages (aged : Peer → Bool) : Prop :=
  ∀ p q, aged p = true → q.finishedAt ≤ p.finishedAt → aged q = true

theorem KeepStatePolicy.pastAge_ages (policy : KeepStatePolicy) (now : ℤ) :
    Ages (policy.pastAge now) := by
  intro p q h hle
  obtain ⟨age, hage, hreached⟩ := (Option.any_eq_true _ _).mp h
  exact (Option.any_eq_true _ _).mpr ⟨age, hage, age.reached_of_le hreached hle⟩

namespace Group

/-- How many jobs of the group are newer. -/
def rank (g : Group) (p : Peer) : ℕ := rankIn Peer.newer g.peers p

def beyond (g : Group) (policy : KeepStatePolicy) (p : Peer) : Bool :=
  policy.count.any fun count => count.exceededBy (g.rank p)

/-- The rule. -/
def Doomed (g : Group) (policy : Option KeepStatePolicy) (now : ℤ) (id : JobId) : Prop :=
  ∃ rule, policy = some rule ∧ ∃ p ∈ g.peers, p.id = id ∧ p.owed = false ∧
    (rule.pastAge now p = true ∨ g.beyond rule p = true)

def keepWhere (g : Group) (keep : Peer → Bool) : Group where
  peers := g.peers.filter keep
  ids := g.ids.sublist (List.filter_sublist.map _)
  seqs := g.seqs.sublist (List.filter_sublist.map _)

/-- A due job that owes no cascades. -/
def Due (g : Group) (due : Peer → Bool) (id : JobId) : Prop :=
  ∃ p ∈ g.peers, p.id = id ∧ p.owed = false ∧ due p = true

/-- What the deletion of the due jobs leaves: those that owe cascades stay. -/
def afterDue (g : Group) (due : Peer → Bool) : Group := g.keepWhere fun p => !(due p && !p.owed)

/-- What the age rule leaves. -/
def afterAge (g : Group) (policy : KeepStatePolicy) (now : ℤ) : Group :=
  g.afterDue (policy.pastAge now)

theorem eq_of_id {g : Group} {p q : Peer} (hp : p ∈ g.peers) (hq : q ∈ g.peers)
    (h : p.id = q.id) : p = q :=
  List.inj_on_of_nodup_map g.ids hp hq h

/-- A job the age spares keeps its rank: whatever outranks it is younger still. -/
theorem rank_afterDue {g : Group} {aged : Peer → Bool} (hages : Ages aged) {p : Peer}
    (h : aged p = false) : (g.afterDue aged).rank p = g.rank p := by
  apply rankIn_filter
  intro q _ hnewer
  have hle : p.finishedAt ≤ q.finishedAt := by
    unfold Peer.newer at hnewer
    omega
  have hage : aged q = false := by
    rw [Bool.eq_false_iff] at h ⊢
    exact fun hq => h (hages q p hq hle)
  simp [hage]

/-- An age rule and a rule on ranks may be applied one after the other. -/
theorem due_age_then_rank (g : Group) {aged : Peer → Bool} (hages : Ages aged) (beyond : ℕ → Bool)
    (id : JobId) :
    g.Due (fun p => aged p || beyond (g.rank p)) id ↔
      g.Due aged id ∨ (g.afterDue aged).Due (fun p => beyond ((g.afterDue aged).rank p)) id := by
  constructor
  · rintro ⟨p, hp, hid, howed, hdue⟩
    rw [Bool.or_eq_true] at hdue
    cases hage : aged p with
    | true => exact .inl ⟨p, hp, hid, howed, hage⟩
    | false =>
      have hbeyond : beyond (g.rank p) = true := hdue.resolve_left (by simp [hage])
      rw [← rank_afterDue hages hage] at hbeyond
      exact .inr ⟨p, List.mem_filter.mpr ⟨hp, by simp [hage]⟩, hid, howed, hbeyond⟩
  · rintro (⟨p, hp, hid, howed, hage⟩ | ⟨p, hp, hid, howed, hbeyond⟩)
    · exact ⟨p, hp, hid, howed, (Bool.or_eq_true _ _).mpr (.inl hage)⟩
    · obtain ⟨hp, hkeep⟩ := List.mem_filter.mp hp
      have hage : aged p = false := by simpa [howed] using hkeep
      have hbeyond : beyond ((g.afterDue aged).rank p) = true := hbeyond
      rw [rank_afterDue hages hage] at hbeyond
      exact ⟨p, hp, hid, howed, (Bool.or_eq_true _ _).mpr (.inr hbeyond)⟩

theorem not_due {g : Group} {due : Peer → Bool} (h : ∀ p, due p = false) (id : JobId) :
    ¬g.Due due id := by
  rintro ⟨p, _, _, _, hdue⟩
  rw [h p] at hdue
  cases hdue

theorem not_doomed_of_none (g : Group) (now : ℤ) (id : JobId) : ¬g.Doomed none now id := by
  rintro ⟨rule, hrule, _⟩
  cases hrule

theorem afterDue_of_not {g : Group} {due : Peer → Bool} (h : ∀ p ∈ g.peers, due p = false) :
    g.afterDue due = g := by
  obtain ⟨peers, ids, seqs⟩ := g
  simp only [afterDue, keepWhere, mk.injEq, List.filter_eq_self]
  intro p hp
  rw [h p hp]
  rfl

theorem pastAge_of_none {policy : KeepStatePolicy} (h : policy.ageMs = none) (now : ℤ) (p : Peer) :
    policy.pastAge now p = false := by
  simp [KeepStatePolicy.pastAge, h]

theorem beyond_of_none {policy : KeepStatePolicy} (h : policy.count = none) (g : Group) (p : Peer) :
    g.beyond policy p = false := by
  simp [beyond, h]

theorem doomed_iff_due (g : Group) (policy : KeepStatePolicy) (now : ℤ) (id : JobId) :
    g.Doomed (some policy) now id ↔
      g.Due (fun p => policy.pastAge now p || g.beyond policy p) id := by
  constructor
  · rintro ⟨rule, hrule, p, hp, hid, howed, hdue⟩
    obtain rfl := Option.some.inj hrule
    exact ⟨p, hp, hid, howed, (Bool.or_eq_true _ _).mpr hdue⟩
  · rintro ⟨p, hp, hid, howed, hdue⟩
    exact ⟨policy, rfl, p, hp, hid, howed, (Bool.or_eq_true _ _).mp hdue⟩

theorem doomed_of_age_then_count (g : Group) (policy : KeepStatePolicy) (now : ℤ) (id : JobId) :
    g.Doomed (some policy) now id ↔
      g.Due (policy.pastAge now) id ∨
        (g.afterAge policy now).Due ((g.afterAge policy now).beyond policy) id :=
  (g.doomed_iff_due policy now id).trans (g.due_age_then_rank (policy.pastAge_ages now)
    (fun rank => policy.count.any fun count : JsNumber => count.exceededBy rank) id)

/-- A count below 1 dooms every job that owes no cascades, whatever went before. -/
theorem doomed_of_keepsNone (g : Group) {policy : KeepStatePolicy} (h : policy.KeepsNone)
    (due : Peer → Bool) (now : ℤ) (id : JobId) :
    g.Doomed (some policy) now id ↔
      g.Due due id ∨ (g.afterDue due).Due ((g.afterDue due).beyond policy) id := by
  obtain ⟨q, hcount, hlt⟩ := h
  have hfloor : ⌊q⌋ < 1 := Int.floor_lt.mpr (by exact_mod_cast hlt)
  have hbeyond : ∀ g' : Group, ∀ p, g'.beyond policy p = true := fun g' p => by
    simp only [beyond, hcount, Option.any_some, JsNumber.exceededBy, decide_eq_true_eq]
    omega
  constructor
  · rintro ⟨rule, hrule, p, hp, hid, howed, _⟩
    cases hdue : due p with
    | true => exact .inl ⟨p, hp, hid, howed, hdue⟩
    | false =>
      exact .inr ⟨p, List.mem_filter.mpr ⟨hp, by simp [hdue]⟩, hid, howed, hbeyond _ p⟩
  · rintro (⟨p, hp, hid, howed, _⟩ | ⟨p, hp, hid, howed, _⟩)
    · exact ⟨policy, rfl, p, hp, hid, howed, .inr (hbeyond g p)⟩
    · exact ⟨policy, rfl, p, (List.mem_filter.mp hp).1, hid, howed, .inr (hbeyond g p)⟩

/-- What a driver that stores policies as JSON reads comes to the same. -/
theorem doomed_of_stored {g : Group} {keep : KeepPolicy} {state : TerminalState}
    {policy : Option KeepStatePolicy} {now : ℤ} {id : JobId}
    (h : keep.governing state = policy ∨
      policy = none ∧ keep.governing state = some ⟨none, none⟩) :
    g.Doomed (keep.governing state) now id ↔ g.Doomed policy now id := by
  rcases h with h | ⟨hnone, hbare⟩
  · rw [h]
  · rw [hnone, hbare, iff_false_right (g.not_doomed_of_none now id), doomed_of_age_then_count]
    rintro (hdue | hdue)
    · exact not_due (pastAge_of_none rfl now) id hdue
    · exact not_due (beyond_of_none rfl _) id hdue

/-! ## Pruning again and again -/

theorem rank_lt_of_newer {g : Group} {p q : Peer} (hp : p ∈ g.peers) (h : p.newer q) :
    g.rank p < g.rank q := by
  apply rankIn_lt (fun a b c hab hbc => ?_) (fun a haa => Peer.newer_asymm a a haa haa) hp h
  unfold Peer.newer at *
  omega

/-- A rule on a job and its rank: what comes after a due job is due. -/
def Falls (due : Peer → ℕ → Bool) : Prop :=
  ∀ p q m n, due p m = true → p.newer q → m < n → due q n = true

/-- Whether the rule takes the job out of the group. -/
def hits (g : Group) (due : Peer → ℕ → Bool) (id : JobId) : Bool :=
  g.peers.any fun p => decide (p.id = id) && !p.owed && due p (g.rank p)

theorem hits_iff {g : Group} {due : Peer → ℕ → Bool} {id : JobId} :
    g.hits due id = true ↔ g.Due (fun p => due p (g.rank p)) id := by
  simp only [hits, List.any_eq_true, Bool.and_eq_true, decide_eq_true_eq, Bool.not_eq_true',
    and_assoc, Due]

/-- A job that is gone has taken everything after it along, the exempt ones apart. -/
def Closed (g : Group) (gone : JobId → Bool) : Prop :=
  ∀ q ∈ g.peers, ∀ p ∈ g.peers, gone q.id = true → q.newer p → p.owed = false → gone p.id = true

theorem rank_of_closed {g : Group} {gone : JobId → Bool} (h : g.Closed gone) {p : Peer}
    (hp : p ∈ g.peers) (howed : p.owed = false) (hstays : gone p.id = false) :
    (g.keepWhere fun p => !gone p.id).rank p = g.rank p := by
  apply rankIn_filter
  intro q hq hnewer
  cases hgone : gone q.id with
  | false => rfl
  | true =>
    rw [h q hq p hp hgone hnewer howed] at hstays
    cases hstays

/-- What is left of a closed group loses what the whole group would lose. -/
theorem due_of_closed {g : Group} {gone : JobId → Bool} (h : g.Closed gone)
    (due : Peer → ℕ → Bool) (id : JobId) :
    (g.keepWhere fun p => !gone p.id).Due
        (fun p => due p ((g.keepWhere fun p => !gone p.id).rank p)) id ↔
      gone id = false ∧ g.hits due id = true := by
  rw [hits_iff]
  constructor
  · rintro ⟨p, hp, rfl, howed, hdue⟩
    obtain ⟨hp, hstays⟩ := List.mem_filter.mp hp
    have hstays : gone p.id = false := by simpa using hstays
    have hdue : due p ((g.keepWhere fun p => !gone p.id).rank p) = true := hdue
    rw [rank_of_closed h hp howed hstays] at hdue
    exact ⟨hstays, p, hp, rfl, howed, hdue⟩
  · rintro ⟨hstays, p, hp, rfl, howed, hdue⟩
    refine ⟨p, List.mem_filter.mpr ⟨hp, by simp [hstays]⟩, rfl, howed, ?_⟩
    simpa only [rank_of_closed h hp howed hstays] using hdue

/-! ## A driver's list of the group -/

section Listed

variable {J : Type} {g : Group} {jobs : List J} {f : J → Peer}

theorem mem_of_listed (h : (jobs.map f).Perm g.peers) {job : J} (hjob : job ∈ jobs) :
    f job ∈ g.peers :=
  h.mem_iff.mp (List.mem_map_of_mem hjob)

theorem exists_of_listed (h : (jobs.map f).Perm g.peers) {p : Peer} (hp : p ∈ g.peers) :
    ∃ job ∈ jobs, f job = p :=
  List.mem_map.mp (h.mem_iff.mpr hp)

theorem rank_of_listed (h : (jobs.map f).Perm g.peers) (job : J) :
    rankIn (fun a b => (f a).newer (f b)) jobs job = g.rank (f job) := by
  rw [rank, ← rankIn_perm h, rankIn_map f fun _ _ => Iff.rfl]

/-- A list of the group's jobs in any order. -/
theorem listed_of_mem (hids : (jobs.map fun job => (f job).id).Nodup)
    (hmem : ∀ p, (∃ job ∈ jobs, f job = p) ↔ p ∈ g.peers) : (jobs.map f).Perm g.peers := by
  have hnodup : (jobs.map f).Nodup := by
    have hmap : (jobs.map f).map (·.id) = jobs.map fun job => (f job).id := List.map_map
    exact List.Nodup.of_map _ (hmap ▸ hids)
  apply (List.perm_ext_iff_of_nodup hnodup (List.Nodup.of_map _ g.ids)).mpr
  intro p
  rw [List.mem_map]
  exact hmem p

/-- A list of the jobs that stay lists the group that stays. -/
theorem listed_keepWhere (h : (jobs.map f).Perm g.peers) {jobs' : List J} {f' : J → Peer}
    {keep : Peer → Bool} (hids : (jobs'.map fun job => (f' job).id).Nodup)
    (hmem : ∀ job, job ∈ jobs' ↔ job ∈ jobs ∧ keep (f job) = true)
    (hf : ∀ job ∈ jobs', f' job = f job) : (jobs'.map f').Perm (g.keepWhere keep).peers := by
  apply listed_of_mem hids
  intro p
  rw [keepWhere, List.mem_filter]
  constructor
  · rintro ⟨job, hjob, rfl⟩
    obtain ⟨hold, hkeep⟩ := (hmem job).mp hjob
    rw [hf job hjob]
    exact ⟨mem_of_listed h hold, hkeep⟩
  · rintro ⟨hp, hkeep⟩
    obtain ⟨job, hjob, rfl⟩ := exists_of_listed h hp
    have hstays := (hmem job).mpr ⟨hjob, hkeep⟩
    exact ⟨job, hstays, hf job hstays⟩

/-- No two jobs of a group tie, so sorting newest first orders it strictly. -/
theorem pairwise_sorted (le : J → J → Prop) [DecidableRel le] [Std.Total le] [IsTrans J le]
    (h : (jobs.map f).Perm g.peers)
    (hle : ∀ a ∈ jobs, ∀ b ∈ jobs, le a b → (f b).finishedAt < (f a).finishedAt ∨
      (f b).finishedAt = (f a).finishedAt ∧ (f b).seq ≤ (f a).seq) :
    (jobs.insertionSort le).Pairwise fun a b => (f a).newer (f b) := by
  have hseqs : (jobs.map fun job => (f job).seq).Nodup := by
    have hnodup := (h.map (·.seq)).nodup_iff.mpr g.seqs
    rwa [List.map_map] at hnodup
  apply pairwise_insertionSort_of_ne hseqs.of_map
  intro a ha b hb hne hab
  have hseq : (f a).seq ≠ (f b).seq := fun heq => hne (List.inj_on_of_nodup_map hseqs ha hb heq)
  have hab := hle a ha b hb hab
  unfold Peer.newer
  omega

theorem mem_drop_sorted (le : J → J → Prop) [DecidableRel le] [Std.Total le] [IsTrans J le]
    (h : (jobs.map f).Perm g.peers)
    (hle : ∀ a ∈ jobs, ∀ b ∈ jobs, le a b → (f b).finishedAt < (f a).finishedAt ∨
      (f b).finishedAt = (f a).finishedAt ∧ (f b).seq ≤ (f a).seq)
    {job : J} (hjob : job ∈ jobs) (n : ℕ) :
    job ∈ (jobs.insertionSort le).drop n ↔ n ≤ g.rank (f job) := by
  rw [mem_drop_iff (pairwise_sorted le h hle) (fun a b => Peer.newer_asymm (f a) (f b))
    ((List.mem_insertionSort le).mpr hjob), rankIn_perm (List.perm_insertionSort le jobs),
    rank_of_listed h]

theorem mem_take_sorted (le : J → J → Prop) [DecidableRel le] [Std.Total le] [IsTrans J le]
    (h : (jobs.map f).Perm g.peers)
    (hle : ∀ a ∈ jobs, ∀ b ∈ jobs, le a b → (f b).finishedAt < (f a).finishedAt ∨
      (f b).finishedAt = (f a).finishedAt ∧ (f b).seq ≤ (f a).seq)
    {job : J} (hjob : job ∈ jobs) (n : ℕ) :
    job ∈ (jobs.insertionSort le).take n ↔ g.rank (f job) < n := by
  rw [mem_take_iff (pairwise_sorted le h hle) (fun a b => Peer.newer_asymm (f a) (f b))
    ((List.mem_insertionSort le).mpr hjob), rankIn_perm (List.perm_insertionSort le jobs),
    rank_of_listed h]

end Listed

end Group

/-! ## Pruning -/

/-- The doomed jobs are gone and the others are as they were. -/
def Pruned {J : Type} (before after : JobId → Option J) (doomed : JobId → Prop) : Prop :=
  ∀ id, (doomed id → after id = none) ∧ (¬doomed id → after id = before id)

namespace Pruned

variable {J : Type} {before mid after : JobId → Option J} {doomed doomed' : JobId → Prop}

theorem refl_of (h : ∀ id, ¬doomed id) : Pruned before before doomed :=
  fun id => ⟨fun hd => absurd hd (h id), fun _ => rfl⟩

theorem congr (h : Pruned before after doomed) (hiff : ∀ id, doomed' id ↔ doomed id) :
    Pruned before after doomed' :=
  fun id => ⟨fun hd => (h id).1 ((hiff id).mp hd), fun hd => (h id).2 fun h' => hd ((hiff id).mpr h')⟩

/-- Two prunings in a row. -/
theorem trans (h : Pruned before mid doomed) (h' : Pruned mid after doomed') :
    Pruned before after fun id => doomed id ∨ doomed' id := by
  intro id
  constructor
  · intro hd
    by_cases hd' : doomed' id
    · exact (h' id).1 hd'
    · rw [(h' id).2 hd', (h id).1 (hd.resolve_right hd')]
  · intro hd
    rw [(h' id).2 fun hd' => hd (.inr hd'), (h id).2 fun hd' => hd (.inl hd')]

end Pruned

/-! ## The history sweep -/

/-- A terminal job as the history sweep sees it. -/
structure Aging where
  state : TerminalState
  finishedAt : ℤ
  keep : Option KeepPolicy
  owed : Bool

/-- The stricter of a job's own age and the store ceiling, either of which may be missing. -/
def strictest : Option JsNumber → Option JsNumber → Option JsNumber
  | some age, some ttl => if age.lt ttl then some age else some ttl
  | some age, none => some age
  | none, ttl => ttl

def Aging.ownAge (job : Aging) : Option JsNumber :=
  (job.keep.bind (·.governing job.state)).bind (·.ageMs)

/-- It owes no cascades and `finishedAt <= now - min(ttl, own age)`. -/
def Aging.expired (job : Aging) (ttlByState : HistoryTtlByState) (now : ℤ) : Bool :=
  !job.owed &&
    (strictest job.ownAge (ttlByState.of job.state)).any fun age => age.reached job.finishedAt now

/-- Not below 0; `NaN` is no bound at all. -/
def JsNumber.nonnegative : JsNumber → Bool
  | .finite q => decide (0 ≤ q)
  | .negInf => false
  | .posInf | .nan => true

theorem JsNumber.le_of_reached {age : JsNumber} {t now : ℤ} (hage : age.nonnegative = true)
    (h : age.reached t now = true) : t ≤ now := by
  cases age with
  | finite q =>
    simp only [nonnegative, reached, decide_eq_true_eq] at hage h
    have hle : (t : ℚ) ≤ now := h.trans (sub_le_self _ hage)
    exact_mod_cast hle
  | negInf => cases hage
  | posInf | nan => cases h

/-- No age and no ceiling is below 0. -/
structure NonnegativeBounds (history : JobId → Option Aging) (ttlByState : HistoryTtlByState) :
    Prop where
  ages : ∀ id job age, history id = some job → job.ownAge = some age → age.nonnegative = true
  ceilings : ∀ state ttl, ttlByState.of state = some ttl → ttl.nonnegative = true

/-- A sweep that looks at the jobs finished by now sees all that expire. -/
theorem NonnegativeBounds.finished {history : JobId → Option Aging} {ttlByState : HistoryTtlByState}
    (h : NonnegativeBounds history ttlByState) {id : JobId} {job : Aging}
    (hjob : history id = some job) {now : ℤ} (hexpired : job.expired ttlByState now = true) :
    job.finishedAt ≤ now := by
  obtain ⟨_, hany⟩ := (Bool.and_eq_true _ _).mp hexpired
  obtain ⟨bound, hbound, hreached⟩ := (Option.any_eq_true _ _).mp hany
  refine JsNumber.le_of_reached ?_ hreached
  cases howned : job.ownAge with
  | none =>
    rw [howned, strictest.eq_def] at hbound
    exact h.ceilings job.state bound hbound
  | some age =>
    have hage := h.ages id job age hjob howned
    cases hceiling : ttlByState.of job.state with
    | none =>
      rw [howned, hceiling] at hbound
      exact Option.some.inj hbound ▸ hage
    | some ttl =>
      rw [howned, hceiling, strictest] at hbound
      split at hbound
      · exact Option.some.inj hbound ▸ hage
      · exact Option.some.inj hbound ▸ h.ceilings job.state ttl hceiling

/-- The jobs the sweep drops. -/
def Expired (history : JobId → Option Aging) (ttlByState : HistoryTtlByState) (now : ℤ)
    (id : JobId) : Prop :=
  ∃ job, history id = some job ∧ job.expired ttlByState now = true

end EffectMq
