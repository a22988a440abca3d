import EffectMq.DrizzleJobStore.Recovery

/-! # Stall recovery, the whole batch

Recovering the batch and recovering the jobs one at a time are one loop over steps (`Strategy`), which
differ in the rows that are still unflipped while a step runs. `Strategy.loop` says when the loop
lands and what is gone then. The batch lands when no step takes a job that is still to come
(`recoverStalled_ok_iff`), and then the other way lands as well (`recoverEach_lands`).
-/

namespace EffectMq.Drizzle
set_option autoImplicit false
set_option maxHeartbeats 250000

variable {V : Type}

/-! ## The loop -/

/-- A step settles one job while others may be unflipped still. -/
abbrev LoopStep := JobId × List JobId

/-- A property of every entry and of what comes before it. -/
def AtEach {α : Type} (P : List α → α → Prop) (xs : List α) : Prop :=
  ∀ before x after, xs = before ++ x :: after → P before x

theorem atEach_nil {α : Type} (P : List α → α → Prop) : AtEach P [] := by
  intro before x after h
  simp at h

theorem atEach_cons {α : Type} {P : List α → α → Prop} {x : α} {xs : List α} :
    AtEach P (x :: xs) ↔ P [] x ∧ AtEach (fun before => P (x :: before)) xs := by
  constructor
  · intro h
    exact ⟨h [] x xs rfl, fun before y after hxs => h (x :: before) y after (by rw [hxs]; rfl)⟩
  · rintro ⟨hx, hxs⟩ before y after heq
    cases before with
    | nil =>
      obtain ⟨rfl, rfl⟩ := List.cons.inj heq
      exact hx
    | cons z before =>
      obtain ⟨rfl, hrest⟩ := List.cons.inj heq
      exact hxs before y after hrest

section Loop

variable {t : Tables V} {maxStalledCount : ℤ} {now : Millis}

def goneAfter (t : Tables V) (now : Millis) (steps : List LoopStep) (x : JobId) : Bool :=
  steps.any fun step => prunedBy t now step.2 step.1 x

theorem goneAfter_append (done : List LoopStep) (step : LoopStep) :
    goneAfter t now (done ++ [step]) =
      fun x => goneAfter t now done x || prunedBy t now step.2 step.1 x := by
  funext x
  simp [goneAfter]

/-- A step that finds its job lands. -/
def StepLands (t : Tables V) (now : Millis) (done : List LoopStep) (step : LoopStep) : Prop :=
  goneAfter t now done step.1 = false ∧
    ∀ name policy, cancelPolicy t now step.1 = some (name, policy) → Runs policy now

/-- A way to recover: what each step does, and which jobs are unflipped before it. -/
structure Strategy (V : Type) where
  run : List Recovered × Tables V → LoopStep → Except SqlError (List Recovered × Tables V)
  before : LoopStep → List JobId

/-- The step settles its row, and its group is as retention has left it. -/
structure Strategy.Fair (strategy : Strategy V) (hwf : t.WellFormed) (maxStalledCount : ℤ)
    (now : Millis) (done : List LoopStep) (step : LoopStep) : Prop where
  flips : strategy.before step = step.2 ∨ strategy.before step = step.1 :: step.2
  fresh : step.1 ∉ step.2
  undone : step.1 ∉ done.map Prod.fst
  settles : ∃ row₀, t.jobs.get? step.1 = some row₀ ∧ Drizzle.expired now row₀ = true ∧
    ∀ {recovered s}, Midway t maxStalledCount now (strategy.before step) (done.map Prod.fst)
      (goneAfter t now done) s →
      strategy.run (recovered, s) step = settleRecovered now
        (recovered, flipJob s step.1 maxStalledCount now) (flipRow maxStalledCount now row₀)
  closed : ∀ name, (visible hwf now name step.2).Closed (goneAfter t now done)

/-- Each step begins with the jobs unflipped that the one before it left. -/
def Strategy.Chain (strategy : Strategy V) : List JobId → List LoopStep → Prop
  | _, [] => True
  | pending, step :: steps => pending = strategy.before step ∧ strategy.Chain step.2 steps

def lastPending : List JobId → List LoopStep → List JobId
  | pending, [] => pending
  | _, step :: steps => lastPending step.2 steps

/-- The loop lands exactly when each of its steps does, and what is gone then is what the steps
pruned. -/
theorem Strategy.loop (strategy : Strategy V) (hwf : t.WellFormed) (todo done : List LoopStep)
    (pending : List JobId) (acc : List Recovered × Tables V)
    (hchain : strategy.Chain pending todo)
    (hmid : Midway t maxStalledCount now pending (done.map Prod.fst) (goneAfter t now done) acc.2)
    (hfair : AtEach (fun before => strategy.Fair hwf maxStalledCount now (done ++ before)) todo) :
    ((∃ r, todo.foldlM strategy.run acc = .ok r) ↔
      AtEach (fun before => StepLands t now (done ++ before)) todo) ∧
    ∀ r, todo.foldlM strategy.run acc = .ok r →
      Midway t maxStalledCount now (lastPending pending todo) ((done ++ todo).map Prod.fst)
        (goneAfter t now (done ++ todo)) r.2 := by
  induction todo generalizing done pending acc with
  | nil =>
    refine ⟨iff_of_true ⟨acc, rfl⟩ (atEach_nil _), fun r hr => ?_⟩
    obtain rfl := Except.ok.inj hr
    rw [List.append_nil]
    exact hmid
  | cons step todo ih =>
    obtain ⟨hpending, hchain⟩ := hchain
    obtain ⟨hfirst, hrest⟩ := atEach_cons.mp hfair
    rw [List.append_nil] at hfirst
    obtain ⟨row₀, hrow₀, hexpired, hrun⟩ := hfirst.settles
    have hassoc : ∀ P : List LoopStep → LoopStep → Prop,
        (fun before => P (done ++ step :: before)) = fun before => P ((done ++ [step]) ++ before) :=
      fun P => funext fun before => by rw [List.append_assoc, List.singleton_append]
    subst hpending
    have hflip := hmid.flip hfirst.flips hfirst.fresh
    have hstep : strategy.run acc step = _ := hrun hmid
    have hlands := hflip.settle_ok_iff hwf hrow₀ hexpired hfirst.fresh acc.1
    rw [← hstep] at hlands
    rw [atEach_cons, List.append_nil, hassoc (StepLands t now),
      List.append_cons done step todo, List.foldlM_cons]
    cases hok : strategy.run acc step with
    | error e =>
      rw [hok] at hlands
      have hnot : ¬StepLands t now done step := fun h => by
        obtain ⟨r, hr⟩ := hlands.mpr h
        cases hr
      exact ⟨iff_of_false (fun ⟨r, hr⟩ => by cases hr) fun h => hnot h.1, fun r hr => by cases hr⟩
    | ok acc' =>
      rw [hok] at hlands
      have hhere : StepLands t now done step := hlands.mp ⟨acc', rfl⟩
      have hnext : Midway t maxStalledCount now step.2 ((done ++ [step]).map Prod.fst)
          (goneAfter t now (done ++ [step])) acc'.2 := by
        rw [hstep] at hok
        rw [List.map_append, goneAfter_append]
        exact hflip.settle_ok hwf hrow₀ hexpired hfirst.fresh hfirst.undone hfirst.closed hok
      rw [hassoc (strategy.Fair hwf maxStalledCount now)] at hrest
      obtain ⟨hiff, hafter⟩ := ih (done ++ [step]) step.2 acc' hchain hnext hrest
      exact ⟨hiff.trans (and_iff_right hhere).symm, hafter⟩

/-! ## What a step prunes -/

theorem mem_visible (hwf : t.WellFormed) {name : String} {pending : List JobId} {p : Peer} :
    p ∈ (visible hwf now name pending).peers ↔
      p ∈ (cancelGroup hwf now name).peers ∧ p.id ∉ pending := by
  rw [visible, Group.keepWhere, List.mem_filter, decide_eq_true_eq]

/-- The job fixes the group it counts in, and how. -/
theorem eq_of_mem_cancelGroup (hwf : t.WellFormed) {name name' : String} {p q : Peer}
    (hp : p ∈ (cancelGroup hwf now name).peers) (hq : q ∈ (cancelGroup hwf now name').peers)
    (hid : p.id = q.id) : name = name' ∧ p = q := by
  obtain ⟨row, hrow, hname, _, rfl⟩ := (mem_cancelPeers hwf).mp hp
  obtain ⟨row', hrow', hname', _, rfl⟩ := (mem_cancelPeers hwf).mp hq
  rw [hid, hrow'] at hrow
  obtain rfl := Option.some.inj hrow
  exact ⟨hname.symm.trans hname', rfl⟩

theorem prunedBy_iff (hwf : t.WellFormed) {pending : List JobId} {id x : JobId} :
    prunedBy t now pending id x = true ↔
      ∃ name policy, cancelPolicy t now id = some (name, policy) ∧
        ∃ p ∈ (visible hwf now name pending).peers, p.id = x ∧ p.owed = false ∧
          prunes policy now p ((visible hwf now name pending).rank p) = true := by
  cases hpolicy : cancelPolicy t now id with
  | none => simp [prunedBy, hpolicy]
  | some rule =>
    obtain ⟨name, policy⟩ := rule
    rw [prunedBy_eq hwf hpolicy, Group.hits_iff]
    constructor
    · exact fun h => ⟨name, policy, rfl, h⟩
    · rintro ⟨name', policy', heq, h⟩
      obtain ⟨rfl, rfl⟩ := Prod.mk.inj (Option.some.inj heq)
      exact h

theorem not_mem_of_prunedBy (hwf : t.WellFormed) {pending : List JobId} {id x : JobId}
    (h : prunedBy t now pending id x = true) : x ∉ pending := by
  obtain ⟨_, _, _, p, hp, rfl, _⟩ := (prunedBy_iff hwf).mp h
  exact ((mem_visible hwf).mp hp).2

theorem rank_visible_le (hwf : t.WellFormed) (name : String) (pending : List JobId) (p : Peer) :
    (visible hwf now name pending).rank p ≤ (visible hwf now name []).rank p := by
  apply List.Sublist.countP_le
  exact List.monotone_filter_right _ fun q _ => by simp

/-- A job that is counted with fewer others ranks no higher, so whoever is pruned among fewer is
pruned among all. -/
theorem prunedBy_nil (hwf : t.WellFormed) {pending : List JobId} {id x : JobId}
    (h : prunedBy t now pending id x = true) : prunedBy t now [] id x = true := by
  obtain ⟨name, policy, hpolicy, p, hp, hid, howed, hprunes⟩ := (prunedBy_iff hwf).mp h
  have hmem : p ∈ (visible hwf now name []).peers :=
    (mem_visible hwf).mpr ⟨((mem_visible hwf).mp hp).1, List.not_mem_nil⟩
  refine (prunedBy_iff hwf).mpr ⟨name, policy, hpolicy, p, hmem, hid, howed, ?_⟩
  rw [prunes, Bool.or_eq_true] at hprunes ⊢
  exact hprunes.imp_right fun hlimit => pastLimit_le hlimit (rank_visible_le hwf name pending p)

/-- What is gone is closed when no step, with every requested cancel counted, takes a job that was
still pending at it. -/
theorem closed_goneAfter (hwf : t.WellFormed) {done : List LoopStep}
    (hlater : ∀ step ∈ done, ∀ x ∈ step.2, prunedBy t now [] step.1 x = false)
    (name : String) (pending : List JobId) :
    (visible hwf now name pending).Closed (goneAfter t now done) := by
  intro q hq p hp hgone hnewer howed
  obtain ⟨step, hstep, hpruned⟩ := List.any_eq_true.mp hgone
  obtain ⟨name', policy, hpolicy, q', hq', hid, _, hprunes⟩ := (prunedBy_iff hwf).mp hpruned
  have hqall := ((mem_visible hwf).mp hq).1
  have hpall := ((mem_visible hwf).mp hp).1
  obtain ⟨rfl, rfl⟩ := eq_of_mem_cancelGroup hwf ((mem_visible hwf).mp hq').1 hqall hid
  by_cases hpending : p.id ∈ step.2
  · have hrank : (visible hwf now name' step.2).rank q' < (visible hwf now name' []).rank p :=
      (rank_visible_le hwf name' step.2 q').trans_lt (Group.rank_lt_of_newer
        ((mem_visible hwf).mpr ⟨hqall, List.not_mem_nil⟩) hnewer)
    have htaken : prunedBy t now [] step.1 p.id = true :=
      (prunedBy_iff hwf).mpr ⟨name', policy, hpolicy, p,
        (mem_visible hwf).mpr ⟨hpall, List.not_mem_nil⟩, rfl, howed,
        prunes_falls policy now q' p _ _ hprunes hnewer hrank⟩
    rw [hlater step hstep p.id hpending] at htaken
    cases htaken
  · refine List.any_eq_true.mpr ⟨step, hstep, (prunedBy_iff hwf).mpr ⟨name', policy, hpolicy, p,
      (mem_visible hwf).mpr ⟨hpall, hpending⟩, rfl, howed, ?_⟩⟩
    exact prunes_falls policy now q' p _ _ hprunes hnewer (Group.rank_lt_of_newer hq' hnewer)

/-! ## The batch -/

theorem atEach_map {α β : Type} {P : List β → β → Prop} (f : α → β) {xs : List α} :
    AtEach P (xs.map f) ↔ AtEach (fun before x => P (before.map f) (f x)) xs := by
  induction xs generalizing P with
  | nil => exact iff_of_true (atEach_nil _) (atEach_nil _)
  | cons x xs ih =>
    rw [List.map_cons, atEach_cons, atEach_cons, ih]
    rfl

/-- A step of the batch: nothing is unflipped. -/
def atOnce (id : JobId) : LoopStep := (id, [])

def batch (t : Tables V) (maxStalledCount : ℤ) (now : Millis) : Strategy V where
  run acc step :=
    match (flipExpired t maxStalledCount now).jobs.get? step.1 with
    | some row => settleRecovered now acc row
    | none => .ok acc
  before step := step.2

theorem settledUpTo_eq (ids : List JobId) : settledUpTo t ids maxStalledCount now =
    (ids.map atOnce).foldlM (batch t maxStalledCount now).run
      ([], flipExpired t maxStalledCount now) := by
  rw [settledUpTo, List.foldlM_filterMap, List.foldlM_map]
  congr 1
  funext acc id
  simp only [batch, atOnce]
  cases (flipExpired t maxStalledCount now).jobs.get? id <;> rfl

/-- Each id is an expired job, and there once. -/
structure Expired (t : Tables V) (now : Millis) (ids : List JobId) : Prop where
  nodup : ids.Nodup
  expired : ∀ id ∈ ids, ∃ row, t.jobs.get? id = some row ∧ Drizzle.expired now row = true

theorem Returns.all {returned : List JobId} (h : Returns t now returned) : Expired t now returned :=
  ⟨h.nodup, fun id => (h.expired id).mp⟩

theorem Expired.of_append {ids ids' : List JobId} (h : Expired t now (ids ++ ids')) :
    Expired t now ids :=
  ⟨h.nodup.of_append_left, fun id hid => h.expired id (List.mem_append_left ids' hid)⟩

/-- An id of the list is none of those before it. -/
theorem Expired.atEach {ids : List JobId} (h : Expired t now ids) :
    AtEach (fun before id => id ∉ before ∧
      ∃ row, t.jobs.get? id = some row ∧ Drizzle.expired now row = true) ids := by
  intro before id after heq
  refine ⟨fun hid => ?_, h.expired id (by simp [heq])⟩
  have hnodup := h.nodup
  rw [heq] at hnodup
  exact (List.disjoint_of_nodup_append hnodup) hid List.mem_cons_self

/-- A row the `UPDATE` has flipped stays as it is. -/
theorem flipJob_eq_self {pending done : List JobId} {gone : JobId → Bool} {s : Tables V}
    (h : Midway t maxStalledCount now pending done gone s) {id : JobId} (hid : id ∉ pending) :
    flipJob s id maxStalledCount now = s := by
  have hjobs : (s.jobs.modify id fun row =>
      if expired now row then recoverRow maxStalledCount now row else row) = s.jobs := by
    apply JsMap.modify_eq_self
    intro row hrow
    obtain ⟨_, row₀, _, rfl⟩ := h.row_of hrow
    rw [if_neg hid, flipRow_not_expired]
    rfl
  rw [flipJob, hjobs]

theorem batch_fair (hwf : t.WellFormed) {ids : List JobId} (hids : Expired t now ids) :
    AtEach ((batch t maxStalledCount now).Fair hwf maxStalledCount now) (ids.map atOnce) := by
  rw [atEach_map]
  intro before id after heq
  obtain ⟨hfresh, row₀, hrow₀, hexpired⟩ := hids.atEach before id after heq
  refine ⟨.inl rfl, List.not_mem_nil, by simpa [atOnce] using hfresh,
    ⟨row₀, hrow₀, hexpired, fun hmid => ?_⟩, fun name => closed_goneAfter hwf (by simp [atOnce]) name []⟩
  rw [flipJob_eq_self hmid List.not_mem_nil]
  simp only [batch, atOnce, flipExpired_jobs, hrow₀, Option.map_some]

theorem midway_flipExpired (t : Tables V) (maxStalledCount : ℤ) (now : Millis) :
    Midway t maxStalledCount now [] [] (goneAfter t now []) (flipExpired t maxStalledCount now) where
  unflipped := by simp
  jobs id := by simp [goneAfter, flipExpired_jobs]
  owes _ := rfl
  ledger _ _ := rfl
  outbox := by simp [flipExpired]

/-- The batch has come to a job: it lands there when the job was not pruned and its policy runs. -/
def BatchLands (t : Tables V) (now : Millis) (before : List JobId) (id : JobId) : Prop :=
  (∀ id' ∈ before, prunedBy t now [] id' id = false) ∧
    ∀ name policy, cancelPolicy t now id = some (name, policy) → Runs policy now

theorem chain_batch (ids : List JobId) :
    (batch t maxStalledCount now).Chain [] (ids.map atOnce) := by
  induction ids with
  | nil => trivial
  | cons id ids ih => exact ⟨rfl, ih⟩

theorem lastPending_batch (ids : List JobId) : lastPending [] (ids.map atOnce) = [] := by
  induction ids with
  | nil => rfl
  | cons id ids ih => exact ih

theorem settledUpTo_spec (maxStalledCount : ℤ) (hwf : t.WellFormed) {ids : List JobId}
    (hids : Expired t now ids) :
    ((∃ r, settledUpTo t ids maxStalledCount now = .ok r) ↔ AtEach (BatchLands t now) ids) ∧
    ∀ r, settledUpTo t ids maxStalledCount now = .ok r →
      Midway t maxStalledCount now [] ids (goneAfter t now (ids.map atOnce)) r.2 := by
  obtain ⟨hiff, hmid⟩ := (batch t maxStalledCount now).loop hwf (ids.map atOnce) [] []
    ([], flipExpired t maxStalledCount now) (chain_batch ids) (midway_flipExpired t _ now)
    (batch_fair hwf hids)
  have hlands : ∀ before id, StepLands t now (before.map atOnce) (atOnce id) ↔
      BatchLands t now before id := by
    intro before id
    simp [StepLands, BatchLands, goneAfter, atOnce]
  simp only [← settledUpTo_eq, List.nil_append] at hiff hmid
  constructor
  · rw [hiff, atEach_map]
    simp only [hlands]
  · intro r hr
    have hr' := hmid r hr
    simpa [lastPending_batch, atOnce, Function.comp_def] using hr'

/-! ## One at a time -/

/-- The steps of the jobs: at each, those after it are unflipped. -/
def inTurn : List JobId → List LoopStep
  | [] => []
  | id :: rest => (id, rest) :: inTurn rest

def oneByOne (V : Type) (maxStalledCount : ℤ) (now : Millis) : Strategy V where
  run acc step := recoverOne maxStalledCount now acc step.1
  before step := step.1 :: step.2

@[simp] theorem map_fst_inTurn (ids : List JobId) : (inTurn ids).map Prod.fst = ids := by
  induction ids with
  | nil => rfl
  | cons id rest ih => rw [inTurn, List.map_cons, ih]

theorem mem_inTurn {ids : List JobId} {step : LoopStep} :
    step ∈ inTurn ids ↔ ∃ before, ids = before ++ step.1 :: step.2 := by
  induction ids with
  | nil => simp [inTurn]
  | cons id rest ih =>
    rw [inTurn, List.mem_cons, ih]
    constructor
    · rintro (rfl | ⟨before, rfl⟩)
      · exact ⟨[], rfl⟩
      · exact ⟨id :: before, rfl⟩
    · rintro ⟨_ | ⟨first, before⟩, heq⟩
      · obtain ⟨rfl, rfl⟩ := List.cons.inj heq
        exact .inl rfl
      · exact .inr ⟨before, (List.cons.inj heq).2⟩

/-- At an earlier step a job of a later one is unflipped. -/
theorem inTurn_append {ids : List JobId} {before after : List LoopStep} {step : LoopStep}
    (h : inTurn ids = before ++ step :: after) :
    ids = before.map Prod.fst ++ step.1 :: step.2 ∧ ∀ earlier ∈ before, step.1 ∈ earlier.2 := by
  induction ids generalizing before with
  | nil => simp [inTurn] at h
  | cons id rest ih =>
    rw [inTurn] at h
    cases before with
    | nil =>
      obtain ⟨rfl, _⟩ := List.cons.inj h
      exact ⟨rfl, by simp⟩
    | cons first before =>
      obtain ⟨rfl, hrest⟩ := List.cons.inj h
      obtain ⟨heq, hmem⟩ := ih hrest
      refine ⟨congrArg (id :: ·) heq, fun earlier hearlier => ?_⟩
      rcases List.mem_cons.mp hearlier with rfl | hearlier
      · rw [heq]
        exact List.mem_append_right _ List.mem_cons_self
      · exact hmem earlier hearlier

/-- No step takes a job that is still pending at it. -/
theorem goneAfter_inTurn (hwf : t.WellFormed) {ids : List JobId} {before after : List LoopStep}
    {step : LoopStep} (h : inTurn ids = before ++ step :: after) :
    goneAfter t now before step.1 = false := by
  rw [Bool.eq_false_iff]
  intro hgone
  obtain ⟨earlier, hearlier, hpruned⟩ := List.any_eq_true.mp hgone
  exact not_mem_of_prunedBy hwf hpruned ((inTurn_append h).2 earlier hearlier)

theorem oneByOne_fair (hwf : t.WellFormed) {ids : List JobId} (hids : Expired t now ids)
    (hintact : Intact t ids now) :
    AtEach ((oneByOne V maxStalledCount now).Fair hwf maxStalledCount now) (inTurn ids) := by
  intro before step after heq
  obtain ⟨hsplit, _⟩ := inTurn_append heq
  obtain ⟨hundone, row₀, hrow₀, hexpired⟩ := hids.atEach _ _ _ hsplit
  have hfresh : step.1 ∉ step.2 := by
    have hnodup := hids.nodup
    rw [hsplit] at hnodup
    exact (List.nodup_cons.mp hnodup.of_append_right).1
  refine ⟨.inr rfl, hfresh, hundone, ⟨row₀, hrow₀, hexpired, fun hmid => ?_⟩, fun name => ?_⟩
  · have hrow := (hmid.flip (.inr rfl) hfresh).get?_of_not_gone hrow₀ hfresh
      (goneAfter_inTurn hwf heq)
    simp only [oneByOne, recoverOne, hrow]
  · apply closed_goneAfter hwf
    intro earlier hearlier x hx
    obtain ⟨before', hids⟩ := mem_inTurn.mp (heq ▸ List.mem_append_left _ hearlier)
    exact hintact before' earlier.1 earlier.2 hids x hx

theorem chain_inTurn (ids : List JobId) : (oneByOne V maxStalledCount now).Chain ids (inTurn ids) := by
  induction ids with
  | nil => trivial
  | cons id rest ih => exact ⟨rfl, ih⟩

theorem lastPending_inTurn (ids : List JobId) : lastPending ids (inTurn ids) = [] := by
  induction ids with
  | nil => rfl
  | cons id rest ih => exact ih

theorem midway_start {returned : List JobId} (h : Returns t now returned) (maxStalledCount : ℤ) :
    Midway t maxStalledCount now returned [] (goneAfter t now []) t where
  unflipped id := (h.expired id).mp
  jobs id := by
    simp only [goneAfter, List.any_nil, Bool.false_eq_true, if_false]
    split
    · rfl
    · rename_i hid
      cases hrow : t.jobs.get? id with
      | none => rfl
      | some row =>
        have hnot : ¬expired now row = true := fun hexpired =>
          hid ((h.expired id).mpr ⟨row, hrow, hexpired⟩)
        rw [Option.map_some, flipRow, if_neg hnot]
  owes _ := rfl
  ledger _ _ := rfl
  outbox := by simp

/-- When the batch takes no job that is still to come, one at a time lands too. -/
theorem recoverEach_lands (maxStalledCount : ℤ) (hwf : t.WellFormed) {returned : List JobId}
    (hreturned : Returns t now returned) (hintact : Intact t returned now)
    (hruns : ∀ id ∈ returned, ∀ name policy, cancelPolicy t now id = some (name, policy) →
      Runs policy now) :
    ∃ r, recoverEach t returned maxStalledCount now = .ok r ∧
      Midway t maxStalledCount now [] returned (goneAfter t now (inTurn returned)) r.2 := by
  obtain ⟨hiff, hmid⟩ := (oneByOne V maxStalledCount now).loop hwf (inTurn returned) [] returned
    ([], t) (chain_inTurn returned) (midway_start hreturned _)
    (oneByOne_fair hwf hreturned.all hintact)
  have hfold : (inTurn returned).foldlM (oneByOne V maxStalledCount now).run ([], t) =
      recoverEach t returned maxStalledCount now := by
    conv_rhs => rw [← map_fst_inTurn returned, recoverEach, List.foldlM_map]
    rfl
  rw [hfold] at hiff hmid
  obtain ⟨r, hr⟩ := hiff.mpr fun before step after heq =>
    ⟨goneAfter_inTurn hwf heq, hruns step.1 (by simp [(inTurn_append heq).1])⟩
  refine ⟨r, hr, ?_⟩
  simpa [lastPending_inTurn] using hmid r hr

/-! ## When the recovery does what it is to do -/

/-- Every job of the list lands in its turn when every policy runs and no job is pruned early. -/
theorem atEach_batchLands {ids : List JobId} : AtEach (BatchLands t now) ids ↔
    Intact t ids now ∧ ∀ id ∈ ids, ∀ name policy, cancelPolicy t now id = some (name, policy) →
      Runs policy now := by
  constructor
  · intro h
    refine ⟨fun before id after heq later hlater => ?_, fun id hid => ?_⟩
    · obtain ⟨between, after', hafter⟩ := List.append_of_mem hlater
      exact (h (before ++ id :: between) later after' (by simp [heq, hafter])).1 id (by simp)
    · obtain ⟨before, after, heq⟩ := List.append_of_mem hid
      exact (h before id after heq).2
  · rintro ⟨hintact, hruns⟩ before id after heq
    refine ⟨fun earlier hearlier => ?_, hruns id (by simp [heq])⟩
    obtain ⟨before', between, hbefore⟩ := List.append_of_mem hearlier
    exact hintact before' earlier (between ++ id :: after) (by simp [heq, hbefore]) id (by simp)

/-- The job's turn in the batch. -/
theorem enters_of_midway (hwf : t.WellFormed) {before : List JobId} {gone : JobId → Bool}
    {s : Tables V} (h : Midway t maxStalledCount now [] before gone s) {id : JobId} {row : JobRow V}
    (hrow : t.jobs.get? id = some row) (hid : id ∉ before) (hgone : gone id = false) :
    ∃ t₁, insertAttempt s id (if row.cancelRequested then .cancelled else .stalled)
        row.processedAt now none = .ok t₁ ∧
      t₁.attempts id = t.attempts id ++ [recoveryEntry t now row] := by
  have hsome := h.get?_of_not_gone hrow List.not_mem_nil hgone
  have hledger := h.ledger hsome hrow
  rw [if_neg hid] at hledger
  refine ⟨_, by rw [insertAttempt, if_pos (JsMap.has_eq_true.mpr ⟨_, hsome⟩)], ?_⟩
  simp only [if_true, hledger, recoveryEntry, hwf.keyed id row hrow]

/-- The two ways leave the same jobs when they prune the same ones. -/
theorem jobs_eq_iff {done : List JobId} {gone gone' : JobId → Bool}
    {s s' : Tables V} (h : Midway t maxStalledCount now [] done gone s)
    (h' : Midway t maxStalledCount now [] done gone' s')
    (hrow : ∀ x, gone x = true → (t.jobs.get? x).isSome)
    (hsub : ∀ x, gone' x = true → gone x = true) :
    (∀ id, s.jobs.get? id = s'.jobs.get? id) ↔ ∀ x, gone x = true → gone' x = true := by
  simp only [h.jobs, h'.jobs, List.not_mem_nil, if_false]
  constructor
  · intro hsame x hx
    obtain ⟨row, hrow⟩ := Option.isSome_iff_exists.mp (hrow x hx)
    have heq := hsame x
    rw [hx, if_pos rfl, hrow] at heq
    by_contra hnot
    rw [if_neg hnot] at heq
    cases heq
  · intro hiff id
    rw [Bool.eq_iff_iff.mpr ⟨hiff id, hsub id⟩]

theorem goneAfter_atOnce {ids : List JobId} {x : JobId} :
    goneAfter t now (ids.map atOnce) x = true ↔ ∃ id ∈ ids, prunedBy t now [] id x = true := by
  simp [goneAfter, atOnce]

theorem goneAfter_inTurn_all {ids : List JobId} {x : JobId} :
    goneAfter t now (inTurn ids) x = true ↔
      ∃ before id after, ids = before ++ id :: after ∧ prunedBy t now after id x = true := by
  rw [goneAfter, List.any_eq_true]
  constructor
  · rintro ⟨step, hstep, hpruned⟩
    obtain ⟨before, heq⟩ := mem_inTurn.mp hstep
    exact ⟨before, step.1, step.2, heq, hpruned⟩
  · rintro ⟨before, id, after, heq, hpruned⟩
    exact ⟨(id, after), mem_inTurn.mpr ⟨before, heq⟩, hpruned⟩

/-- What one at a time prunes, the batch prunes. The converse is `Orderly.same`. -/
theorem jobs_eq_iff_same (hwf : t.WellFormed) {returned : List JobId} {s s' : Tables V}
    (h : Midway t maxStalledCount now [] returned (goneAfter t now (returned.map atOnce)) s)
    (h' : Midway t maxStalledCount now [] returned (goneAfter t now (inTurn returned)) s') :
    (∀ id, s.jobs.get? id = s'.jobs.get? id) ↔
      ∀ id ∈ returned, ∀ x, prunedBy t now [] id x = true →
        ∃ before id' after, returned = before ++ id' :: after ∧
          prunedBy t now after id' x = true := by
  rw [jobs_eq_iff h h']
  · simp only [goneAfter_atOnce, goneAfter_inTurn_all]
    exact ⟨fun hall id hid x hx => hall x ⟨id, hid, hx⟩, fun hall x ⟨id, hid, hx⟩ => hall id hid x hx⟩
  · intro x hx
    obtain ⟨id, _, hpruned⟩ := goneAfter_atOnce.mp hx
    obtain ⟨_, _, _, p, hp, rfl, _⟩ := (prunedBy_iff hwf).mp hpruned
    obtain ⟨row, hrow, _⟩ := (mem_cancelPeers hwf).mp ((mem_visible hwf).mp hp).1
    exact Option.isSome_iff_exists.mpr ⟨row, hrow⟩
  · intro x hx
    obtain ⟨before, id, after, heq, hpruned⟩ := goneAfter_inTurn_all.mp hx
    exact goneAfter_atOnce.mpr ⟨id, by simp [heq], prunedBy_nil hwf hpruned⟩

end Loop

/-- Stall recovery lands and leaves what one job at a time leaves exactly when the requested cancels
are orderly. -/
theorem recovers_iff {t : Tables V} {returned : List JobId} {now : Millis} (maxStalledCount : ℤ)
    (hwf : t.WellFormed) (hreturned : Returns t now returned) :
    Recovers t returned maxStalledCount now ↔ Orderly t returned now := by
  obtain ⟨hok, hmid⟩ := settledUpTo_spec maxStalledCount hwf hreturned.all
  rw [atEach_batchLands] at hok
  constructor
  · rintro ⟨recovered, t', hrun, _, _, _, recovered₁, t₁, hrun₁, hsame⟩
    obtain ⟨hintact, hruns⟩ := hok.mp ⟨_, hrun⟩
    obtain ⟨r, hr, hmid₁⟩ :=
      recoverEach_lands maxStalledCount hwf hreturned hintact hruns
    obtain rfl := Except.ok.inj (hrun₁.symm.trans hr)
    exact ⟨hruns, hintact, (jobs_eq_iff_same hwf (hmid _ hrun) hmid₁).mp hsame⟩
  · rintro ⟨hruns, hintact, hsame⟩
    obtain ⟨⟨recovered, t'⟩, hrun⟩ := hok.mpr ⟨hintact, hruns⟩
    obtain ⟨⟨recovered₁, t₁⟩, hr, hmid₁⟩ :=
      recoverEach_lands maxStalledCount hwf hreturned hintact hruns
    have hafter := hmid _ hrun
    refine ⟨recovered, t', hrun, fun id row hrow => ?_, ?_, hafter.outbox, recovered₁, t₁, hr,
      (jobs_eq_iff_same hwf hafter hmid₁).mpr hsame⟩
    · obtain ⟨_, row₀, _, rfl⟩ := hafter.row_of hrow
      exact flipRow_not_expired maxStalledCount now row₀
    · intro before id after row heq hrow
      have hbefore : Expired t now before := by
        have hall := hreturned.all
        rw [heq] at hall
        exact hall.of_append
      obtain ⟨hokBefore, hmidBefore⟩ :=
        settledUpTo_spec maxStalledCount hwf hbefore
      have hlands := atEach_batchLands.mpr ⟨hintact, hruns⟩
      obtain ⟨acc, hacc⟩ := hokBefore.mpr fun b x a hx =>
        hlands b x (a ++ id :: after) (by simp [heq, hx])
      have hgone : goneAfter t now (before.map atOnce) id = false := by
        rw [Bool.eq_false_iff, Ne, goneAfter_atOnce]
        rintro ⟨earlier, hearlier, hpruned⟩
        rw [(hlands before id after heq).1 earlier hearlier] at hpruned
        cases hpruned
      obtain ⟨s₁, hs₁, hentry⟩ := enters_of_midway hwf (hmidBefore acc hacc) hrow
        (hreturned.all.atEach before id after heq).1 hgone
      refine ⟨acc, s₁, hacc, hs₁, hentry, fun row' hrow' => ?_⟩
      have hledger := hafter.ledger hrow' hrow
      rwa [if_pos (by simp [heq])] at hledger

/-! ## A cancel that prunes another -/

/-- An active job whose lock ran out at 900 and whose cancel was requested; of its name no cancelled
jobs are kept. -/
def lapsedRow (id : JobId) (seq : ℕ) : JobRow ℕ where
  id := id
  name := "mail"
  queue := "default"
  payload := 0
  metadata := []
  state := .active
  priority := 0
  attemptsMax := 1
  attemptsMade := 1
  stalledCount := 0
  backoff := none
  keep := some { cancelled := some ⟨some (.finite 0), none⟩ }
  timeoutMs := none
  cancelRequested := true
  dedupeKey := none
  trace := none
  parent := none
  flow := none
  runAt := 0
  enqueuedAt := 0
  processedAt := some 500
  finishedAt := none
  exit := none
  failedReason := none
  seq := seq
  lockToken := some "token"
  lockExpiresAt := some 900

def lapsedTables : Tables ℕ :=
  { Tables.empty with jobs := ⟨[("a", lapsedRow "a" 1), ("b", lapsedRow "b" 2)], by decide⟩ }

theorem lapsedTables_get? {id : JobId} {row : JobRow ℕ} (h : lapsedTables.jobs.get? id = some row) :
    id = "a" ∧ row = lapsedRow "a" 1 ∨ id = "b" ∧ row = lapsedRow "b" 2 := by
  have hmem : (id, row) ∈ [("a", lapsedRow "a" 1), ("b", lapsedRow "b" 2)] :=
    JsMap.get?_eq_some.mp h
  simpa using hmem

theorem lapsedTables_wellFormed : lapsedTables.WellFormed where
  keyed id row h := by
    rcases lapsedTables_get? h with ⟨rfl, rfl⟩ | ⟨rfl, rfl⟩ <;> rfl
  seqs := by decide
  finished id row h hstate := by
    rcases lapsedTables_get? h with ⟨rfl, rfl⟩ | ⟨rfl, rfl⟩ <;> cases hstate

theorem lapsedTables_returns : Returns lapsedTables 1000 ["a", "b"] where
  nodup := by decide
  expired id := by
    constructor
    · intro hid
      have hid : id = "a" ∨ id = "b" := by simpa using hid
      rcases hid with rfl | rfl
      · exact ⟨lapsedRow "a" 1, rfl, rfl⟩
      · exact ⟨lapsedRow "b" 2, rfl, rfl⟩
    · rintro ⟨row, hrow, _⟩
      rcases lapsedTables_get? hrow with ⟨rfl, _⟩ | ⟨rfl, _⟩ <;> simp

theorem recovers_iff_lapsed :
    Recovers lapsedTables ["a", "b"] 1 1000 ↔ Orderly lapsedTables ["a", "b"] 1000 :=
  recovers_iff 1 lapsedTables_wellFormed lapsedTables_returns

/-- Settling the first job deletes the second, and the whole recovery is rolled back. -/
theorem recovery_rolls_back :
    recoverStalled lapsedTables ["a", "b"] 1 1000 = .error .foreignKeyViolation ∧
      ¬Recovers lapsedTables ["a", "b"] 1 1000 := by
  have hfails : recoverStalled lapsedTables ["a", "b"] 1 1000 = .error .foreignKeyViolation := by
    rfl
  refine ⟨hfails, ?_⟩
  rintro ⟨recovered, t', hrun, _⟩
  cases hfails.symm.trans hrun

end EffectMq.Drizzle
