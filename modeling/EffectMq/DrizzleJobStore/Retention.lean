import EffectMq.Retention
import EffectMq.DrizzleJobStore.Tables

/-! # Retention in the Postgres driver

`applyKeep` runs one purge for the age and one for the count. Each is a statement with parameters:
the cutoff has to be a timestamp and the count a limit, or the transaction fails.
-/

namespace EffectMq.Drizzle
set_option autoImplicit false
set_option maxHeartbeats 250000

variable {V : Type}

instance : Std.Total (@newerFirst V) := descending_total JobRow.finishedKey JobRow.seq

instance : IsTrans (JobRow V) newerFirst := descending_trans JobRow.finishedKey JobRow.seq

/-- The rows of one name and terminal state. -/
def terminalJobs (t : Tables V) (name : String) (state : TerminalState) : List (JobRow V) :=
  t.jobs.values.filter (inGroup name state)

def peerOf (t : Tables V) (row : JobRow V) : Peer :=
  ⟨row.id, row.finishedAt.getD 0, row.seq, owesCascades t row.id⟩

/-- The rows of that name and state are the group. -/
structure HoldsGroup (t : Tables V) (name : String) (state : TerminalState) (g : Group) : Prop where
  keyed : ∀ id row, t.jobs.get? id = some row → row.id = id
  finished : ∀ row ∈ terminalJobs t name state, row.finishedAt.isSome
  peers : ((terminalJobs t name state).map (peerOf t)).Perm g.peers

/-! ## Purging -/

theorem purgeJobsWhere_jobs (t : Tables V) (predicate : JobRow V → Bool) (id : JobId) :
    (purgeJobsWhere t predicate).jobs.get? id =
      (t.jobs.get? id).filter fun row => !predicate row := by
  rw [purgeJobsWhere, JsMap.get?_filter]

/-- The rows of a flow that stays stay. -/
theorem purgeJobsWhere_owesCascades {t : Tables V} {predicate : JobRow V → Bool} {id : JobId}
    (h : (t.jobs.get? id).any predicate = false) :
    owesCascades (purgeJobsWhere t predicate) id = owesCascades t id := by
  rw [Bool.eq_iff_iff]
  simp only [owesCascades, List.any_eq_true, JsMap.mem_values, purgeJobsWhere, JsMap.get?_filter,
    Option.filter_eq_some_iff]
  constructor
  · rintro ⟨row, ⟨key, hrow, _⟩, howes⟩
    exact ⟨row, ⟨key, hrow⟩, howes⟩
  · rintro ⟨row, ⟨key, hrow⟩, howes⟩
    have hid : row.flowId = id := by
      simp only [Bool.and_eq_true, decide_eq_true_eq] at howes
      exact howes.1.1
    exact ⟨row, ⟨key, hrow, by rw [hid, h]; rfl⟩, howes⟩

namespace HoldsGroup

variable {t : Tables V} {name : String} {state : TerminalState} {g : Group}

theorem mem_terminalJobs (h : HoldsGroup t name state g) {row : JobRow V} :
    row ∈ terminalJobs t name state ↔
      t.jobs.get? row.id = some row ∧ inGroup name state row = true := by
  rw [terminalJobs, List.mem_filter, JsMap.mem_values]
  constructor
  · rintro ⟨⟨id, hrow⟩, hgroup⟩
    rw [h.keyed id row hrow]
    exact ⟨hrow, hgroup⟩
  · rintro ⟨hrow, hgroup⟩
    exact ⟨⟨_, hrow⟩, hgroup⟩

/-- A purge of the group's due rows leaves a smaller group. -/
theorem purge (h : HoldsGroup t name state g) {due : Peer → Bool} {predicate : JobRow V → Bool}
    (hpredicate : ∀ row ∈ terminalJobs t name state,
      predicate row = (due (peerOf t row) && !(peerOf t row).owed))
    (hgroup : ∀ row, predicate row = true → inGroup name state row = true) :
    HoldsGroup (purgeJobsWhere t predicate) name state (g.afterDue due) ∧
      Pruned t.jobs.get? (purgeJobsWhere t predicate).jobs.get? (g.Due due) := by
  have hget : ∀ {id row}, (purgeJobsWhere t predicate).jobs.get? id = some row ↔
      t.jobs.get? id = some row ∧ predicate row = false := by
    intro id row
    rw [purgeJobsWhere_jobs, Option.filter_eq_some_iff]
    simp
  have hkeyed : ∀ id row, (purgeJobsWhere t predicate).jobs.get? id = some row → row.id = id :=
    fun id row hrow => h.keyed id row (hget.mp hrow).1
  have hmem : ∀ row, row ∈ terminalJobs (purgeJobsWhere t predicate) name state ↔
      row ∈ terminalJobs t name state ∧
        (!(due (peerOf t row) && !(peerOf t row).owed)) = true := by
    intro row
    rw [terminalJobs, List.mem_filter, JsMap.mem_values]
    simp only [hget]
    constructor
    · rintro ⟨⟨id, hrow, hstays⟩, hin⟩
      obtain rfl := h.keyed id row hrow
      have hin' := h.mem_terminalJobs.mpr ⟨hrow, hin⟩
      rw [← hpredicate row hin', hstays]
      exact ⟨hin', rfl⟩
    · rintro ⟨hin, hstays⟩
      obtain ⟨hrow, hgroup⟩ := h.mem_terminalJobs.mp hin
      rw [← hpredicate row hin] at hstays
      exact ⟨⟨row.id, hrow, by simpa using hstays⟩, hgroup⟩
  constructor
  · refine ⟨hkeyed, fun row hrow => h.finished row ((hmem row).mp hrow).1, ?_⟩
    refine Group.listed_keepWhere h.peers ?_ hmem fun row hrow => ?_
    · exact (JsMap.nodup_values_map hkeyed).sublist (List.filter_sublist.map _)
    · obtain ⟨hin, hstays⟩ := (hmem row).mp hrow
      have hnot : (t.jobs.get? row.id).any predicate = false := by
        rw [← hpredicate row hin] at hstays
        rw [(h.mem_terminalJobs.mp hin).1, Option.any_some]
        simpa using hstays
      rw [peerOf, peerOf, purgeJobsWhere_owesCascades hnot]
  · intro id
    have hiff : g.Due due id ↔ ∃ row, t.jobs.get? id = some row ∧ predicate row = true := by
      constructor
      · rintro ⟨p, hp, rfl, howed, hdue⟩
        obtain ⟨row, hrow, rfl⟩ := Group.exists_of_listed h.peers hp
        refine ⟨row, (h.mem_terminalJobs.mp hrow).1, ?_⟩
        rw [hpredicate row hrow, hdue, howed]
        rfl
      · rintro ⟨row, hrow, htrue⟩
        obtain rfl := h.keyed id row hrow
        have hin := h.mem_terminalJobs.mpr ⟨hrow, hgroup row htrue⟩
        rw [hpredicate row hin, Bool.and_eq_true] at htrue
        exact ⟨_, Group.mem_of_listed h.peers hin, rfl, by simpa using htrue.2, htrue.1⟩
    rw [hiff, purgeJobsWhere_jobs]
    constructor
    · rintro ⟨row, hrow, htrue⟩
      simp [hrow, htrue]
    · intro hnone
      cases hrow : t.jobs.get? id with
      | none => rfl
      | some row =>
        have hfalse : predicate row = false := by
          rw [Bool.eq_false_iff]
          exact fun htrue => hnone ⟨row, hrow, htrue⟩
        simp [hfalse]

/-- The age statement. -/
theorem purgeAged (h : HoldsGroup t name state g) (cutoff : ℤ) :
    HoldsGroup (Drizzle.purgeAged t name state cutoff) name state
        (g.afterDue fun p => decide (p.finishedAt ≤ cutoff)) ∧
      Pruned t.jobs.get? (Drizzle.purgeAged t name state cutoff).jobs.get?
        (g.Due fun p => decide (p.finishedAt ≤ cutoff)) := by
  apply h.purge
  · intro row hrow
    obtain ⟨time, htime⟩ := Option.isSome_iff_exists.mp (h.finished row hrow)
    rw [(h.mem_terminalJobs.mp hrow).2]
    simp [finishedBy, peerOf, htime]
  · intro row htrue
    simp only [Bool.and_eq_true] at htrue
    exact htrue.1.1

theorem newerFirst_iff (h : HoldsGroup t name state g) {a b : JobRow V}
    (ha : a ∈ terminalJobs t name state) (hb : b ∈ terminalJobs t name state) :
    newerFirst a b ↔ (peerOf t b).finishedAt < (peerOf t a).finishedAt ∨
      (peerOf t b).finishedAt = (peerOf t a).finishedAt ∧ (peerOf t b).seq ≤ (peerOf t a).seq := by
  obtain ⟨ta, hta⟩ := Option.isSome_iff_exists.mp (h.finished a ha)
  obtain ⟨tb, htb⟩ := Option.isSome_iff_exists.mp (h.finished b hb)
  have hkey : ∀ {row : JobRow V} {time : ℤ}, row.finishedAt = some time →
      row.finishedKey = toLex (0, time) := fun hrow => by rw [JobRow.finishedKey, hrow]
  rw [newerFirst, hkey hta, hkey htb, Prod.Lex.toLex_lt_toLex, toLex_inj, Prod.mk.injEq]
  simp [peerOf, hta, htb]

/-- The subquery selects the rows that rank below the limit. -/
theorem mem_keptIds (h : HoldsGroup t name state g) {row : JobRow V}
    (hrow : row ∈ terminalJobs t name state) (limit : Option ℕ) :
    row.id ∈ keptIds t name state limit ↔
      (limit.any fun n => decide (n ≤ g.rank (peerOf t row))) = false := by
  have hid : ∀ {rows : List (JobRow V)}, (∀ r ∈ rows, r ∈ terminalJobs t name state) →
      (row.id ∈ rows.map (·.id) ↔ row ∈ rows) := by
    intro rows hrows
    rw [List.mem_map]
    constructor
    · rintro ⟨r, hr, heq⟩
      have hget := (h.mem_terminalJobs.mp (hrows r hr)).1
      rw [heq, (h.mem_terminalJobs.mp hrow).1] at hget
      exact (Option.some.inj hget) ▸ hr
    · exact fun hr => ⟨row, hr, rfl⟩
  have hsorted : ∀ r ∈ (terminalJobs t name state).insertionSort newerFirst,
      r ∈ terminalJobs t name state := fun r => (List.mem_insertionSort _).mp
  cases limit with
  | none =>
    have hmem : row.id ∈ ((terminalJobs t name state).insertionSort newerFirst).map (·.id) :=
      (hid hsorted).mpr ((List.mem_insertionSort _).mpr hrow)
    exact iff_of_true hmem rfl
  | some n =>
    have htake := Group.mem_take_sorted newerFirst h.peers
      (fun a ha b hb => (h.newerFirst_iff ha hb).mp) hrow n
    have hmem := hid fun r hr => hsorted r (List.mem_of_mem_take (i := n) hr)
    rw [Option.any_some, decide_eq_false_iff_not, not_le]
    exact hmem.trans htake

/-- The count statement. -/
theorem purgeBeyond (h : HoldsGroup t name state g) (limit : Option ℕ) :
    Pruned t.jobs.get? (Drizzle.purgeBeyond t name state limit).jobs.get?
      (g.Due fun p => limit.any fun n => decide (n ≤ g.rank p)) := by
  refine (h.purge ?_ ?_).2
  · intro row hrow
    have hkept := h.mem_keptIds hrow limit
    have hdue : (!decide (row.id ∈ keptIds t name state limit)) =
        limit.any fun n => decide (n ≤ g.rank (peerOf t row)) := by
      cases hany : limit.any fun n => decide (n ≤ g.rank (peerOf t row)) with
      | true => simpa [hkept] using hany
      | false => simpa [hkept] using hany
    rw [(h.mem_terminalJobs.mp hrow).2, hdue]
    rfl
  · intro row htrue
    simp only [Bool.and_eq_true] at htrue
    exact htrue.1.1

end HoldsGroup

/-! ## Parameters -/

theorem cut_intCast (n : ℤ) : cut n = n := by
  unfold cut
  split <;> simp

theorem le_cut_iff (x : ℚ) : -210866803200000 ≤ cut x ↔ -210866803200001 < x := by
  unfold cut
  split
  · rename_i hx
    have hfloor := Int.floor_nonneg.mpr hx
    exact iff_of_true (by omega) (by linarith)
  · rw [Int.le_ceil_iff]
    norm_num

/-- Cutting a time that is whole or not negative moves no integer across it. -/
theorem le_cut_of_whole {x : ℚ} (h : 0 ≤ x ∨ x.den = 1) (t : ℤ) : t ≤ cut x ↔ (t : ℚ) ≤ x := by
  rcases h with h | h
  · rw [cut, if_pos h, Int.le_floor]
  · rw [← Rat.coe_int_num_of_den_eq_one h, cut_intCast, Int.cast_le]

/-- A negative fraction is cut to a later time. -/
theorem lt_cut_of_fraction {x : ℚ} (h : x < 0) (hden : x.den ≠ 1) : x < cut x := by
  rw [cut, if_neg (not_le.mpr h)]
  apply lt_of_le_of_ne (Int.le_ceil x)
  intro heq
  apply hden
  rw [heq]
  exact Rat.den_intCast _

theorem newDate_bind (now : ℤ) (f : ℤ → Option ℤ) :
    (newDate now).bind f = if |(now : ℚ)| ≤ 8640000000000000 then f now else none := by
  unfold newDate
  split
  · rw [Option.bind_some, cut_intCast]
  · rfl

/-- When the age statement gets a timestamp, and which. -/
theorem timestamptz_keepCutoff (now : ℤ) (q : ℚ) (ms : ℤ) :
    timestamptz (keepCutoff now (.finite q)) = .ok ms ↔
      |(now : ℚ)| ≤ 8640000000000000 ∧ -210866803200001 < now - q ∧
        now - q ≤ 8640000000000000 ∧ ms = cut (now - q) := by
  have hage : keepCutoff now (.finite q) = (newDate now).bind fun ms => newDate (ms - q) := rfl
  rw [hage, newDate_bind]
  by_cases hnow : |(now : ℚ)| ≤ 8640000000000000
  · rw [if_pos hnow]
    simp only [hnow, true_and, newDate]
    by_cases hx : |(now : ℚ) - q| ≤ 8640000000000000
    · rw [if_pos hx]
      have hle := (abs_le.mp hx).2
      simp only [timestamptz, le_cut_iff]
      split
      · rename_i hlow
        simp [hlow, hle, eq_comm]
      · rename_i hlow
        simp [hlow]
    · rw [if_neg hx]
      refine iff_of_false (fun h => by cases h) ?_
      rintro ⟨hlow, hhigh, _⟩
      exact hx (abs_le.mpr ⟨by linarith, hhigh⟩)
  · rw [if_neg hnow]
    exact iff_of_false (fun h => by cases h) fun h => hnow h.1

theorem limitOf_eq_ok {q : ℚ} {limit : Option ℕ} :
    limitOf (.finite q) = .ok limit ↔
      -1 / 2 ≤ q ∧ Rounding.halfEven q < 2 ^ 63 ∧ limit = some (Rounding.halfEven q).toNat := by
  rw [limitOf, storedNumber, ← Rounding.halfEven_nonneg_iff]
  dsimp only
  split
  · rename_i h
    rw [Except.ok.injEq, eq_comm]
    exact ⟨fun hlimit => ⟨h.1, h.2, hlimit⟩, fun hlimit => hlimit.2.2⟩
  · rename_i h
    exact iff_of_false (fun heq => by cases heq) fun hlimit => h ⟨hlimit.1, hlimit.2.1⟩

/-- A count that fits is read as the number of jobs it stands for. -/
theorem limitOf_of_fits {q : ℚ} (h : CountFits q) :
    limitOf (.finite q) = .ok (some (max 0 ⌊q⌋).toNat) := by
  obtain ⟨hlow, hdown, hhigh⟩ := h
  have heq : Rounding.halfEven q = max 0 ⌊q⌋ := by
    rcases lt_or_ge q 0 with hneg | hnonneg
    · have hfloor : ⌊q⌋ ≤ 0 := (Int.floor_lt.mpr (by exact_mod_cast hneg)).le
      rw [Rounding.halfEven_of_neg hneg hlow, max_eq_left hfloor]
    · rw [(Rounding.halfEven_eq_floor_iff q).mpr (hdown.resolve_left (not_lt.mpr hnonneg)),
        max_eq_right (Int.floor_nonneg.mpr hnonneg)]
  rw [limitOf_eq_ok, heq]
  exact ⟨hlow, by omega, rfl⟩

/-! ## The rule -/

theorem applyAge_prunes {t : Tables V} {name : String} {state : TerminalState} {g : Group}
    (h : HoldsGroup t name state g) {policy : KeepStatePolicy} {now : ℤ} (hportable : policy.Portable now) :
    ∃ t' due, applyAge t name state policy now = .ok t' ∧ HoldsGroup t' name state (g.afterDue due) ∧
      Pruned t.jobs.get? t'.jobs.get? (g.Due due) ∧
      (due = policy.pastAge now ∨ policy.KeepsNone) := by
  unfold applyAge
  cases hage : policy.ageMs with
  | none =>
    refine ⟨t, policy.pastAge now, rfl, ?_,
      Pruned.refl_of (Group.not_due (Group.pastAge_of_none hage now)), .inl rfl⟩
    rw [Group.afterDue_of_not fun p _ => Group.pastAge_of_none hage now p]
    exact h
  | some age =>
    obtain ⟨q, rfl, hnow, hlow, hhigh, hexact⟩ := hportable.2 age hage
    have hcutoff := (timestamptz_keepCutoff now q _).mpr ⟨hnow, hlow, hhigh, rfl⟩
    obtain ⟨hholds, hpruned⟩ := h.purgeAged (cut (now - q))
    refine ⟨_, fun p => decide (p.finishedAt ≤ cut (now - q)), by simp only [hcutoff, Except.map],
      hholds, hpruned, ?_⟩
    have hpast : (0 ≤ (now : ℚ) - q ∨ ((now : ℚ) - q).den = 1) →
        (fun p : Peer => decide (p.finishedAt ≤ cut (now - q))) = policy.pastAge now := by
      intro hwhole
      funext p
      simp [KeepStatePolicy.pastAge, hage, JsNumber.reached, le_cut_of_whole hwhole]
    rcases hexact with hexact | hexact | hexact
    · exact .inl (hpast (.inl hexact))
    · exact .inl (hpast (.inr hexact))
    · exact .inr hexact

theorem applyCount_prunes {t : Tables V} {name : String} {state : TerminalState} {g : Group}
    (h : HoldsGroup t name state g) {policy : KeepStatePolicy} {now : ℤ} (hportable : policy.Portable now) :
    ∃ t', applyCount t name state policy = .ok t' ∧
      Pruned t.jobs.get? t'.jobs.get? (g.Due (g.beyond policy)) := by
  unfold applyCount
  cases hcount : policy.count with
  | none => exact ⟨t, rfl, Pruned.refl_of (Group.not_due (Group.beyond_of_none hcount g))⟩
  | some count =>
    obtain ⟨q, rfl, hfits⟩ := hportable.1 count hcount
    have hdue : g.beyond policy =
        fun p => (some (max 0 ⌊q⌋).toNat).any fun n => decide (n ≤ g.rank p) := by
      funext p
      simp only [Group.beyond, hcount, JsNumber.exceededBy, Option.any_some, decide_eq_decide]
      omega
    refine ⟨purgeBeyond t name state (some (max 0 ⌊q⌋).toNat), ?_, ?_⟩
    · exact congrArg (Except.map (purgeBeyond t name state)) (limitOf_of_fits hfits)
    · rw [hdue]
      exact h.purgeBeyond _

theorem applyKeep_prunes {t : Tables V} {name : String} {state : TerminalState} {g : Group}
    (h : HoldsGroup t name state g) {keep : KeepPolicy} {now : ℤ}
    (hportable : ∀ policy, keep.governing state = some policy → policy.Portable now) :
    ∃ t', applyKeep t name state (some keep) now = .ok t' ∧
      Pruned t.jobs.get? t'.jobs.get? (g.Doomed (keep.governing state) now) := by
  have hstored : keep.governing state = keepPolicyFor keep state ∨ _ := governing_of_stored rfl
  cases hpolicy : keepPolicyFor keep state with
  | none =>
    refine ⟨t, by rw [applyKeep, Option.bind_some, hpolicy], Pruned.refl_of fun id hd => ?_⟩
    rw [Group.doomed_of_stored hstored, hpolicy] at hd
    exact g.not_doomed_of_none now id hd
  | some policy =>
    have heq : keep.governing state = some policy := by
      rcases hstored with hstored | ⟨hnone, _⟩
      · exact hstored.trans hpolicy
      · rw [hnone] at hpolicy
        cases hpolicy
    obtain ⟨t₁, due, ht₁, hholds, haged, hdue⟩ := applyAge_prunes h (hportable policy heq)
    obtain ⟨t₂, ht₂, hbeyond⟩ := applyCount_prunes hholds (hportable policy heq)
    refine ⟨t₂, ?_, ?_⟩
    · rw [applyKeep, Option.bind_some, hpolicy]
      simp only [ht₁, Except.bind, ht₂]
    · rw [heq]
      apply (haged.trans hbeyond).congr
      intro id
      rcases hdue with rfl | hnone
      · exact g.doomed_of_age_then_count policy now id
      · exact g.doomed_of_keepsNone hnone due now id

end EffectMq.Drizzle
