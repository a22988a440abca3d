import EffectMq.MemoryJobStore.Claims
import EffectMq.MemoryJobStore.FailFast
import EffectMq.MemoryJobStore.Failures
import EffectMq.MemoryJobStore.Spacing

/-! # Runs in the ledger

`recordAttempt` dates an entry by `processedAt`, the last claim of the job. That is the claim of the
run that the entry ends, if one is going on. A cancel between two runs, a fail-fast settle and the
cancel that a fan-out finds pending end no run, and copy the claim time of one that is over.
`ledger_chronological` says that nothing else can go wrong with a ledger.

A run goes on from its claim to the entry that records it, a fan-out's included, or to its release.
-/

namespace EffectMq.Memory
set_option autoImplicit false
set_option maxHeartbeats 250000

open Transition

variable {V : Type}

/-! ## The run of a job -/

/-- The claim time of the run that is going on, read off the record before and after an operation. An
entry ends a run, and so does a release. -/
def track (now : Millis) (job job' : MemJob V) (run : Option Millis) : Option Millis :=
  if job.state ≠ .active ∧ job'.state = .active then some now
  else if (job'.attempts.drop job.attempts.length).isEmpty = false then none
  else if job.state = .active ∧ job'.state ≠ .active then none
  else run

def trackRecord (now : Millis) (run : Option Millis) :
    Option (MemJob V) → Option (MemJob V) → Option Millis
  | some job, some job' => track now job job' run
  | _, _ => none

/-- A store, its clock and the run of every job. -/
structure Traced (V : Type) extends Clocked V where
  run : JobId → Option Millis

def TraceStart (s : Traced V) : Prop := s.store = Store.empty ∧ s.run = fun _ => none

def TraceStep (s : Traced V) (event : Millis × Op V) (t : Traced V) : Prop :=
  ClockStep s.toClocked event t.toClocked ∧
    t.run = fun id => trackRecord event.1 (s.run id) (s.store.jobs.get? id) (t.store.jobs.get? id)

/-- The operation cancels the job or settles it in fail-fast. -/
def SettlesJob (s : Store V) (id : JobId) : Op V → Prop
  | .cancel id' => id' = id
  | .cancelByDedupe name key =>
    ∃ entry, s.dedupes.get? (dedupeMapKey name key) = some entry ∧ entry.jobId = id
  | .recordChildResults reports => s.FailsFast reports id
  | _ => False

/-- The operation acks a fan-out of the run that holds the job. -/
def FansOut (s : Store V) (id : JobId) : Op V → Prop
  | .ack id' token (.fanOut failFast children) =>
    id' = id ∧ Holds s id token ∧ AckOutcome.lacksId (.fanOut failFast children) = false
  | _ => False

theorem FansOut.active {s : Store V} {id : JobId} {op : Op V} (h : FansOut s id op) {job : MemJob V}
    (hj : s.jobs.get? id = some job) : job.state = .active := by
  cases op with
  | ack id' token outcome =>
    cases outcome with
    | fanOut failFast children =>
      obtain ⟨-, ⟨held, hheld, ha, -⟩, -⟩ := h
      cases hj.symm.trans hheld
      exact ha
    | _ => exact h.elim
  | _ => exact h.elim

def Idle (state : JobState) : Prop := state = .waiting ∨ state = .delayed

/-- A cancel or a fail-fast settle of a job that no run holds finds no claim time, and a fan-out no
pending cancel. -/
structure NoStaleSettle (s : Traced V) (event : Millis × Op V) : Prop where
  settled : ∀ id job, SettlesJob s.store id event.2 → s.store.jobs.get? id = some job →
    Idle job.state ∨ job.state = .waitingChildren → job.processedAt = none
  fannedOut : ∀ id job, FansOut s.store id event.2 → s.store.jobs.get? id = some job →
    job.cancelRequested = false

/-! ## What a ledger is -/

/-- The order of the entries alone. -/
structure Numbered (job : MemJob V) : Prop where
  attempt : ∀ i entry, job.attempts[i]? = some entry → entry.attempt = i + 1
  finished : job.attempts.Pairwise fun a b => a.finishedAt ≤ b.finishedAt

/-- A run starts after the entries before it were written, those of fan-outs aside. -/
def Consecutive (job : MemJob V) : Prop :=
  job.attempts.Pairwise fun a b =>
    a.outcome ≠ .fannedOut → ∀ startedAt, b.startedAt = some startedAt → a.finishedAt ≤ startedAt

/-- Entries that are there stay as they are. -/
def KeepsEntries (s t : Traced V) : Prop :=
  ∀ id job job', s.store.jobs.get? id = some job → t.store.jobs.get? id = some job' →
    job.attempts <+: job'.attempts

/-- A new entry carries the claim time of the run that is going on, and none if there is none: the first
entry has ended it. -/
def RecordsRun (s : Traced V) (event : Millis × Op V) (t : Traced V) : Prop :=
  ∀ id job job' i entry, s.store.jobs.get? id = some job → t.store.jobs.get? id = some job' →
    (job'.attempts.drop job.attempts.length)[i]? = some entry →
      entry.startedAt = (if i = 0 then s.run id else none) ∧ entry.finishedAt = event.1

/-! ## What an operation does to a record -/

/-- The entry that `recordAttempt` appends to this ledger. -/
def entryOf (job : MemJob V) (now : Millis) (outcome : AttemptOutcome) (exit : Option V) :
    AttemptRecord V :=
  ⟨job.attempts.length + 1, job.processedAt, now, outcome, exit⟩

/-- The state up to a promotion, the last claim and the ledger are as they were. -/
structure Quiet (job job' : MemJob V) : Prop where
  state : job'.state = job.state ∨ Idle job.state ∧ Idle job'.state
  processedAt : job'.processedAt = job.processedAt
  attempts : job'.attempts = job.attempts

theorem Quiet.refl (job : MemJob V) : Quiet job job := ⟨.inl rfl, rfl, rfl⟩

theorem Quiet.idle {job job' : MemJob V} (h : Quiet job job') (hi : Idle job'.state) :
    Idle job.state := by
  rcases h.state with heq | ⟨hidle, -⟩
  · rwa [← heq]
  · exact hidle

theorem not_idle {state : JobState} (h : Idle state) :
    state ≠ .active ∧ state ≠ .waitingChildren ∧ state.isTerminal = false := by
  rcases h with rfl | rfl <;> decide

/-- A pending state in which no run holds the job. -/
theorem unheld {state : JobState} (h : Idle state ∨ state = .waitingChildren) : state ≠ .active := by
  rcases h with (rfl | rfl) | rfl <;> decide

theorem live_cases {state : JobState} (h : state.isTerminal = false) :
    state = .active ∨ Idle state ∨ state = .waitingChildren := by
  cases state with
  | waiting => exact .inr (.inl (.inl rfl))
  | delayed => exact .inr (.inl (.inr rfl))
  | active => exact .inl rfl
  | waitingChildren => exact .inr (.inr rfl)
  | completed | failed | cancelled => cases h

/-- A state that is not idle is as it was. -/
theorem Quiet.state_eq {job job' : MemJob V} (h : Quiet job job') {state : JobState}
    (hs : job'.state = state) (hi : ¬ Idle state) : job.state = state := by
  rcases h.state with heq | ⟨-, hidle⟩
  · rw [← heq, hs]
  · exact absurd (hs ▸ hidle) hi

theorem Quiet.trans {a b c : MemJob V} (h : Quiet a b) (h' : Quiet b c) : Quiet a c := by
  refine ⟨?_, h'.processedAt.trans h.processedAt, h'.attempts.trans h.attempts⟩
  rcases h'.state with heq | ⟨hb, hc⟩
  · rw [heq]
    exact h.state
  · exact .inr ⟨h.idle hb, hc⟩

/-- What one operation can do to a record that it does not delete. Only one that `settles` the job
appends to its ledger while no run holds it, and only one that `races` a cancel appends twice. -/
inductive Turn (now : Millis) (settles races : Prop) (job job' : MemJob V) : Prop
  | quiet (h : Quiet job job')
  | claimed (hs : Idle job.state) (hs' : job'.state = .active) (hp : job'.processedAt = some now)
      (ha : job'.attempts = job.attempts)
  | released (hs : job.state = .active) (hs' : Idle job'.state)
      (hp : job'.processedAt = job.processedAt) (ha : job'.attempts = job.attempts)
  | resumed (hs : job.state = .waitingChildren) (hs' : Idle job'.state)
      (hp : job'.processedAt = job.processedAt) (ha : job'.attempts = job.attempts)
  | retried (hs : job.state.isTerminal = true) (hs' : Idle job'.state)
      (hp : job'.processedAt = none) (ha : job'.attempts = job.attempts)
  | recorded (outcome : AttemptOutcome) (exit : Option V) (hs : job.state.isTerminal = false)
      (hc : job.state ≠ .active → settles)
      (hs' : Idle job'.state ∨ job'.state.isTerminal = true)
      (hp : job'.processedAt = job.processedAt)
      (ha : job'.attempts = job.attempts ++ [entryOf job now outcome exit])
  | fannedOut (hs : job.state = .active) (hs' : job'.state = .waitingChildren ∨ Idle job'.state)
      (hp : job'.processedAt = job.processedAt)
      (ha : job'.attempts = job.attempts ++ [entryOf job now .fannedOut none])
  | fanOutCancelled (hr : races) (hs : job.state = .active) (hs' : job'.state.isTerminal = true)
      (hp : job'.processedAt = job.processedAt)
      (ha : job'.attempts = job.attempts ++ [entryOf job now .fannedOut none,
        ⟨job.attempts.length + 2, job.processedAt, now, .cancelled, none⟩])

theorem endJob_processedAt (job : MemJob V) (now : Millis) (e : Ending V) :
    (endJob job now e).processedAt = job.processedAt := by
  cases e <;> rfl

theorem endJob_attempts (job : MemJob V) (now : Millis) (e : Ending V) :
    ∃ outcome exit,
      (endJob job now e).attempts = job.attempts ++ [entryOf job now outcome exit] := by
  cases e <;> exact ⟨_, _, rfl⟩

/-- A terminal transition after quiet steps. -/
theorem Turn.of_end {now : Millis} {settles races : Prop} {job mid : MemJob V} (h : Quiet job mid)
    (hc : job.state ≠ .active → settles) (flow : Option FlowState) {e : Ending V}
    (he : e.Enabled mid) : Turn now settles races job (endJob { mid with flow := flow } now e) := by
  obtain ⟨outcome, exit, hattempts⟩ := endJob_attempts { mid with flow := flow } now e
  refine .recorded outcome exit ?_ hc (.inr ?_) ?_ ?_
  · rcases h.state with heq | ⟨hidle, -⟩
    · rw [← heq]
      exact he.not_terminal
    · exact (not_idle hidle).2.2
  · rw [endJob_state, isTerminal_toJobState]
  · rw [endJob_processedAt]
    exact h.processedAt
  · rw [hattempts, entryOf, entryOf]
    simp only [h.attempts, h.processedAt]

/-- The record of a job that was just inserted. -/
structure Fresh (job : MemJob V) : Prop where
  idle : Idle job.state
  attempts : job.attempts = []

theorem fresh_newJob (id : JobId) (request : EnqueueRequest V) (now : Millis) (seq : ℕ) :
    Fresh (newJob id request now seq) := by
  refine ⟨?_, rfl⟩
  simp only [newJob]
  split
  · exact .inr rfl
  · exact .inl rfl

/-! ## Elementary steps -/

/-- Steps that are quiet on a record. -/
def Label.IsQuiet : Label V → Prop
  | .move _ (.replace _ _) | .move _ (.promoteNow _) | .move _ (.extend _) | .move _ .requestCancel =>
    True
  | .move _ _ | .finish _ _ _ | .park _ _ _ _ => False
  | _ => True

theorem ViewStep.quiet {id : JobId} {l : Label V} {v v' : View V} (h : ViewStep id l v v')
    (hl : l.IsQuiet) {job' : MemJob V} (hj' : v'.job = some job') :
    (v.job = none ∧ l.Inserts ∧ Fresh job') ∨ ∃ job, v.job = some job ∧ Quiet job job' := by
  cases h with
  | same | rearm | cascade => exact .inr ⟨job', hj', .refl job'⟩
  | insert =>
    cases hj'
    exact .inl ⟨rfl, trivial, fresh_newJob ..⟩
  | promote now rows? hd =>
    cases hj'
    exact .inr ⟨_, rfl, .inr ⟨.inr hd, .inl rfl⟩, rfl, rfl⟩
  | move m rows? hm =>
    cases hj'
    cases m with
    | promoteNow => exact .inr ⟨_, rfl, .inr ⟨.inr hm, .inl rfl⟩, rfl, rfl⟩
    | replace | extend | requestCancel => exact .inr ⟨_, rfl, .inl rfl, rfl, rfl⟩
    | claim | requeue | release | stall | retry | resume => exact hl.elim
  | finish | settle | fanOut | refan => exact hl.elim
  | report =>
    obtain ⟨job, hj, rfl⟩ := Option.map_eq_some_iff.mp hj'
    exact .inr ⟨job, hj, .inl rfl, rfl, rfl⟩
  | remove | prune => cases hj'

/-- A step of another job does not touch this one. -/
theorem ViewStep.of_other {id id' : JobId} (v v' : View V) (hne : id ≠ id') :
    (∀ m, ViewStep id (.move id' m) v v' → v' = v) ∧
    (∀ e now, ViewStep id (.finish id' e now) v v' → v' = v) ∧
    ∀ failFast children now, ViewStep id (.park id' failFast children now) v v' → v' = v := by
  refine ⟨fun m h => ?_, fun e now h => ?_, fun failFast children now h => ?_⟩
  · cases h with
    | same => rfl
    | move => exact absurd rfl hne
  · cases h with
    | same => rfl
    | finish | settle => exact absurd rfl hne
  · cases h with
    | same => rfl
    | fanOut | refan => exact absurd rfl hne

/-- An operation of steps that are quiet here. -/
theorem exec_quiet {s : Store V} (hk : s.toCore.Keyed) (now : Millis) (op : Op V) {id : JobId}
    (hop : ∀ l v v', Allows now op l → ViewStep id l v v' → l.IsQuiet ∨ v' = v) {job job' : MemJob V}
    (hj : s.jobs.get? id = some job) (hj' : (exec s now op).jobs.get? id = some job') :
    Quiet job job' := by
  have hquiet := exec_view_of_job hk now op hj (I := fun v => ∀ j, v.job = some j → Quiet job j)
    (fun l v v' hallows hins hstep hv j hjv => by
      rcases hop l v v' hallows hstep with hl | rfl
      · rcases hstep.quiet hl hjv with ⟨hnone, hinsert, -⟩ | ⟨mid, hmid, hquiet⟩
        · exact absurd hinsert (hins hnone)
        · exact (hv mid hmid).trans hquiet
      · exact hv j hjv)
    (fun j hjv => by
      cases hj.symm.trans hjv
      exact .refl job)
  exact hquiet job' hj'

/-! ## Operations -/

theorem Turn.congr {now : Millis} {settles races : Prop} {job mid job' : MemJob V}
    (h : Turn now settles races job mid) (hst : job'.state = mid.state)
    (hpr : job'.processedAt = mid.processedAt) (hat : job'.attempts = mid.attempts) :
    Turn now settles races job job' := by
  cases h with
  | quiet h =>
    refine .quiet ⟨?_, hpr.trans h.processedAt, hat.trans h.attempts⟩
    rw [hst]
    exact h.state
  | claimed hs hs' hp ha => exact .claimed hs (hst.trans hs') (hpr.trans hp) (hat.trans ha)
  | released hs hs' hp ha => exact .released hs (hst ▸ hs') (hpr.trans hp) (hat.trans ha)
  | resumed hs hs' hp ha => exact .resumed hs (hst ▸ hs') (hpr.trans hp) (hat.trans ha)
  | retried hs hs' hp ha => exact .retried hs (hst ▸ hs') (hpr.trans hp) (hat.trans ha)
  | recorded outcome exit hs hc hs' hp ha =>
    exact .recorded outcome exit hs hc (hst ▸ hs') (hpr.trans hp) (hat.trans ha)
  | fannedOut hs hs' hp ha => exact .fannedOut hs (hst ▸ hs') (hpr.trans hp) (hat.trans ha)
  | fanOutCancelled hr hs hs' hp ha =>
    exact .fanOutCancelled hr hs (hst ▸ hs') (hpr.trans hp) (hat.trans ha)

/-- The ledger as it was shows that the operation neither settles nor races. -/
theorem Turn.of_kept {now : Millis} {settles races settles' races' : Prop} {job job' : MemJob V}
    (h : Turn now settles races job job') (hsame : job'.attempts = job.attempts) :
    Turn now settles' races' job job' := by
  have hgrown : ∀ {added : List (AttemptRecord V)}, added ≠ [] →
      job'.attempts ≠ job.attempts ++ added := by
    intro added hne ha
    rw [hsame] at ha
    exact hne (List.append_right_eq_self.mp ha.symm)
  cases h with
  | quiet h => exact .quiet h
  | claimed hs hs' hp ha => exact .claimed hs hs' hp ha
  | released hs hs' hp ha => exact .released hs hs' hp ha
  | resumed hs hs' hp ha => exact .resumed hs hs' hp ha
  | retried hs hs' hp ha => exact .retried hs hs' hp ha
  | recorded _ _ _ _ _ _ ha => exact absurd ha (hgrown (List.cons_ne_nil _ _))
  | fannedOut _ _ _ ha => exact absurd ha (hgrown (List.cons_ne_nil _ _))
  | fanOutCancelled _ _ _ _ ha => exact absurd ha (hgrown (List.cons_ne_nil _ _))

/-- Quiet steps, then one that is not, then none that matters: `D` is what the one step leaves. -/
theorem Does.turn {P : Label V → Prop} {c c' : Core V} (h : Does P c c') (hk : c.Keyed)
    {id : JobId} {job : MemJob V} (hj : c.jobs.get? id = some job) {now : Millis} {settles races : Prop}
    {D : MemJob V → Prop} (hins : ∀ l, P l → ¬ l.Inserts)
    (hstep : ∀ l v v' mid job', P l → ViewStep id l v v' → v.job = some mid → v'.job = some job' →
      Quiet job mid → Quiet mid job' ∨ Turn now settles races job job' ∧ D job')
    (hdone : ∀ l v v' mid job', P l → ViewStep id l v v' → v.job = some mid → v'.job = some job' →
      D mid → job'.state = mid.state ∧ job'.processedAt = mid.processedAt ∧
        job'.attempts = mid.attempts ∧ D job') {job' : MemJob V}
    (hj' : c'.jobs.get? id = some job') : Turn now settles races job job' := by
  have hview := h.view hk id
    (I := fun v => ∀ j, v.job = some j → Quiet job j ∨ Turn now settles races job j ∧ D j)
    (fun l v v' hl hview _ hv j hjv => by
      cases hmid : v.job with
      | none =>
        rw [hview.absent (hins l hl) hmid] at hjv
        cases hjv
      | some mid =>
        rcases hv mid hmid with hquiet | ⟨hturn, hd⟩
        · exact (hstep l v v' mid j hl hview hmid hjv hquiet).imp_left hquiet.trans
        · obtain ⟨hs, hp, ha, hd'⟩ := hdone l v v' mid j hl hview hmid hjv hd
          exact .inr ⟨hturn.congr hs hp ha, hd'⟩)
    (fun j hjv => by
      cases hj.symm.trans hjv
      exact .inl (.refl job))
  exact (hview job' hj').elim .quiet And.left

section
variable {s : Store V} {now : Millis} {id : JobId} {job job' : MemJob V} {settles races : Prop}

theorem claim_turn (hk : s.toCore.Keyed) (options : ClaimOptions)
    (hj : s.jobs.get? id = some job) (hj' : (exec s now (.claim options)).jobs.get? id = some job') :
    Turn now settles races job job' := by
  refine (exec_does hk now (.claim options)).turn hk hj (D := fun mid => mid.state = .active)
    (fun l hl hins => by cases hl <;> exact hins) ?_ ?_ hj'
  · intro l v v' mid job' hl hstep hmid hjv hquiet
    cases hl with
    | promoteDue =>
      rcases hstep.quiet trivial hjv with ⟨-, hins, -⟩ | ⟨mid', hmid', h⟩
      · exact hins.elim
      · cases hmid.symm.trans hmid'
        exact .inl h
    | claim =>
      cases hstep with
      | same =>
        cases hmid.symm.trans hjv
        exact .inl (.refl mid)
      | move _ _ hm =>
        cases hmid
        cases hjv
        exact .inr ⟨.claimed (hquiet.idle (.inl hm)) rfl rfl hquiet.attempts, rfl⟩
  · intro l v v' mid job' hl hstep hmid hjv hd
    cases hl with
    | promoteDue =>
      cases hstep with
      | same =>
        cases hmid.symm.trans hjv
        exact ⟨rfl, rfl, rfl, hd⟩
      | promote _ _ hdelayed =>
        cases hmid
        cases hd.symm.trans hdelayed
    | claim =>
      cases hstep with
      | same =>
        cases hmid.symm.trans hjv
        exact ⟨rfl, rfl, rfl, hd⟩
      | move _ _ hm =>
        cases hmid
        cases hd.symm.trans hm

theorem retry_turn (hk : s.toCore.Keyed) (id' : JobId) (hj : s.jobs.get? id = some job)
    (hj' : (exec s now (.retry id')).jobs.get? id = some job') : Turn now settles races job job' := by
  refine (exec_does hk now (.retry id')).turn hk hj (D := fun mid => mid.state = .waiting)
    (fun l hl hins => by cases hl; exact hins) ?_ ?_ hj'
  · intro l v v' mid job' hl hstep hmid hjv hquiet
    cases hl
    cases hstep with
    | same =>
      cases hmid.symm.trans hjv
      exact .inl (.refl mid)
    | move _ _ hm =>
      cases hmid
      cases hjv
      refine .inr ⟨.retried ?_ (.inl rfl) rfl hquiet.attempts, rfl⟩
      rw [hquiet.state_eq hm (by rintro (h | h) <;> cases h)]
      rfl
  · intro l v v' mid job' hl hstep hmid hjv hd
    cases hl
    cases hstep with
    | same =>
      cases hmid.symm.trans hjv
      exact ⟨rfl, rfl, rfl, hd⟩
    | move _ _ hm =>
      cases hmid
      cases hd.symm.trans hm

/-- A cancel of any job; it concerns this one only if it is this one. -/
theorem cancelJob_turn (hk : s.toCore.Keyed) (id' : JobId) (hc : id' = id → settles)
    (hj : s.jobs.get? id = some job) (hj' : (cancelJob s now id').2.jobs.get? id = some job') :
    Turn now settles races job job' := by
  let P : Label V → Prop := fun l => l.IsPrune ∨ l = .finish id' .cancelled now ∨
    l = .move id' .requestCancel
  have hdoes : Does P s.toCore (cancelJob s now id').2.toCore :=
    cancelJob_does hk now id' (.inr (.inl rfl)) (.inr (.inr rfl)) fun _ => .inl trivial
  refine hdoes.turn hk hj (D := fun mid => mid.state.isTerminal = true) ?_ ?_ ?_ hj'
  · rintro l (hl | rfl | rfl) hins
    · cases l <;> first | exact hl | exact hins
    · exact hins
    · exact hins
  · rintro l v v' mid job' (hl | rfl | rfl) hstep hmid hjv hquiet
    · cases l <;> try exact hl.elim
      cases hstep with
      | same =>
        cases hmid.symm.trans hjv
        exact .inl (.refl mid)
      | prune => cases hjv
    · cases hstep with
      | same =>
        cases hmid.symm.trans hjv
        exact .inl (.refl mid)
      | finish _ _ _ he | settle _ _ _ he =>
        cases hmid
        cases hjv
        refine .inr ⟨.of_end hquiet (fun _ => hc rfl) _ he, ?_⟩
        rw [endJob_state, isTerminal_toJobState]
    · rcases hstep.quiet trivial hjv with ⟨-, hins, -⟩ | ⟨mid', hmid', h⟩
      · exact hins.elim
      · cases hmid.symm.trans hmid'
        exact .inl h
  · rintro l v v' mid job' (hl | rfl | rfl) hstep hmid hjv hd
    · cases l <;> try exact hl.elim
      cases hstep with
      | same =>
        cases hmid.symm.trans hjv
        exact ⟨rfl, rfl, rfl, hd⟩
      | prune => cases hjv
    · cases hstep with
      | same =>
        cases hmid.symm.trans hjv
        exact ⟨rfl, rfl, rfl, hd⟩
      | finish _ _ _ he | settle _ _ _ he =>
        cases hmid
        rw [he.not_terminal] at hd
        cases hd
    · cases hstep with
      | same =>
        cases hmid.symm.trans hjv
        exact ⟨rfl, rfl, rfl, hd⟩
      | move _ _ hm =>
        cases hmid
        rw [show _ = JobState.active from hm] at hd
        cases hd

/-- A batch of reports that settles the job. -/
theorem settlingReports_turn (hk : s.toCore.Keyed) (reports : List (FlowChildReport V))
    (hc : settles) (hj : s.jobs.get? id = some job)
    (hj' : (exec s now (.recordChildResults reports)).jobs.get? id = some job') :
    Turn now settles races job job' := by
  have hparked : ∀ {mid : MemJob V}, Quiet job mid → mid.state = .waitingChildren →
      job.state = .waitingChildren := fun hquiet hst =>
    hquiet.state_eq hst (by rintro (h | h) <;> cases h)
  refine (exec_does hk now (.recordChildResults reports)).turn hk hj
    (D := fun mid => mid.state ≠ .waitingChildren)
    (fun l hl hins => by cases hl <;> exact hins) ?_ ?_ hj'
  · intro l v v' mid job' hl hstep hmid hjv hquiet
    cases hl with
    | report =>
      rcases hstep.quiet trivial hjv with ⟨-, hins, -⟩ | ⟨mid', hmid', h⟩
      · exact hins.elim
      · cases hmid.symm.trans hmid'
        exact .inl h
    | failFast =>
      cases hstep with
      | same =>
        cases hmid.symm.trans hjv
        exact .inl (.refl mid)
      | finish _ _ _ he | settle _ _ _ he =>
        cases hmid
        cases hjv
        refine .inr ⟨.of_end hquiet (fun _ => hc) _ he, ?_⟩
        rw [endJob_state]
        simp [Ending.outcome, TerminalState.toJobState]
    | settle =>
      cases hstep with
      | same =>
        cases hmid.symm.trans hjv
        exact .inl (.refl mid)
      | move _ _ hm =>
        cases hmid
        cases hjv
        exact .inr ⟨.resumed (hparked hquiet hm.1) (.inl rfl) hquiet.processedAt hquiet.attempts,
          by simp [Move.apply]⟩
    | settlePrune =>
      cases hstep with
      | same =>
        cases hmid.symm.trans hjv
        exact .inl (.refl mid)
      | prune => cases hjv
  · intro l v v' mid job' hl hstep hmid hjv hd
    cases hl with
    | report =>
      cases hstep with
      | same =>
        cases hmid.symm.trans hjv
        exact ⟨rfl, rfl, rfl, hd⟩
      | report =>
        obtain ⟨mid', hmid', rfl⟩ := Option.map_eq_some_iff.mp hjv
        cases hmid.symm.trans hmid'
        exact ⟨rfl, rfl, rfl, hd⟩
    | failFast =>
      cases hstep with
      | same =>
        cases hmid.symm.trans hjv
        exact ⟨rfl, rfl, rfl, hd⟩
      | finish _ _ _ he | settle _ _ _ he =>
        cases hmid
        exact absurd he hd
    | settle =>
      cases hstep with
      | same =>
        cases hmid.symm.trans hjv
        exact ⟨rfl, rfl, rfl, hd⟩
      | move _ _ hm =>
        cases hmid
        exact absurd hm.1 hd
    | settlePrune =>
      cases hstep with
      | same =>
        cases hmid.symm.trans hjv
        exact ⟨rfl, rfl, rfl, hd⟩
      | prune => cases hjv

theorem recordChildResults_turn (hk : s.toCore.Keyed) (reports : List (FlowChildReport V))
    (hj : s.jobs.get? id = some job)
    (hj' : (exec s now (.recordChildResults reports)).jobs.get? id = some job') :
    Turn now (s.FailsFast reports id) races job job' := by
  have hattempts := recordChildResults_attempts hk now reports hj hj'
  by_cases hfails : s.FailsFast reports id
  · exact settlingReports_turn hk reports hfails hj hj'
  · have hturn : Turn now True True job job' := settlingReports_turn hk reports trivial hj hj'
    exact hturn.of_kept (by_contra fun hne => hfails (hattempts.mp hne))

/-- An ending of an active job, and the retention it sets off. -/
theorem finishes_turn (hk : s.toCore.Keyed) {c : Core V} {e : Ending V}
    (h : s.toCore.Finishes id e now c) (hj : s.jobs.get? id = some job) (ha : job.state = .active)
    (hj' : c.jobs.get? id = some job') : Turn now settles races job job' := by
  refine h.view hk (I := fun v => ∀ j, v.job = some j → Turn now settles races job j)
    (fun _ hjv => by cases hjv) ?_ job' hj'
  intro mid flow rows? hmid he j hjv
  cases hj.symm.trans hmid
  cases hjv
  exact .of_end (.refl job) (absurd ha) flow he

theorem ackFanOut_turn (hk : s.toCore.Keyed) (failFast : Bool) (children : List (FlowChildSpec V))
    (hr : job.cancelRequested = true → races) (hj : s.jobs.get? job.id = some job)
    (ha : job.state = .active)
    (hj' : (ackFanOut s now (clearLock job) failFast children).jobs.get? job.id = some job') :
    Turn now settles races job job' := by
  have hpark : Step s.toCore (.park job.id failFast children now)
      (s.toCore.park job failFast children now) := .park failFast children now hj ha
  have hget : (s.toCore.park job failFast children now).jobs.get? job.id =
      some (parkJob job now (manifest job failFast children)) := by
    rw [park_get?, if_pos rfl]
  rcases ackFanOut_cases hk now failFast children hj ha with ⟨hcancel, hfin⟩ | ⟨-, seq, hmove⟩ |
    ⟨-, -, heq⟩
  · refine hfin.view (hpark.keyed hk) (I := fun v => ∀ j, v.job = some j → Turn now settles races job j)
      (fun _ hjv => by cases hjv) ?_ job' hj'
    intro mid flow rows? hmid he j hjv
    cases hget.symm.trans hmid
    cases hjv
    exact .fanOutCancelled (hr hcancel) ha rfl rfl (by simp [endJob, recordAttempt, parkJob, clearLock, entryOf])
  · obtain rfl := hmove.move_eq (hpark.keyed hk) hget hj'
    exact .fannedOut ha (.inr (.inl rfl)) rfl rfl
  · rw [show (ackFanOut s now (clearLock job) failFast children).jobs =
      (s.toCore.park job failFast children now).jobs from congrArg Core.jobs heq, hget] at hj'
    cases hj'
    exact .fannedOut ha (.inl rfl) rfl rfl

/-- An ack that went through. -/
theorem acked {token : String} {outcome : AckOutcome V} {u : Unit}
    (h : (ack s now id token outcome).1 = .ok u) :
    Holds s id token ∧ AckOutcome.lacksId outcome = false := by
  have herrs : ¬ Errs (ack s now id token outcome) := fun ⟨e, he⟩ => by
    rw [h] at he
    cases he
  rw [ack_errs_iff, not_or, not_not, Bool.not_eq_true] at herrs
  exact herrs

theorem ack_turn (hk : s.toCore.Keyed) (id' : JobId) (token : String) (outcome : AckOutcome V)
    (hr : FansOut s id (.ack id' token outcome) → job.cancelRequested = true → races)
    (hj : s.jobs.get? id = some job)
    (hj' : (exec s now (.ack id' token outcome)).jobs.get? id = some job') :
    Turn now settles races job job' := by
  by_cases hid : id = id'
  · subst hid
    cases hres : (ack s now id token outcome).1 with
    | error e =>
      rw [exec, ack_error hres, hj] at hj'
      cases hj'
      exact .quiet (.refl job)
    | ok u =>
      obtain ⟨held, hheld, ha, -, heq⟩ := ack_ok hres
      obtain ⟨hholds, hids⟩ := acked hres
      cases hj.symm.trans hheld
      obtain rfl := hk _ _ hj
      rw [exec, heq] at hj'
      rcases ackOutcome_cases hk now outcome hj ha with ⟨e, -, hfin⟩ |
        ⟨delayMs, exit, seq, rfl, hmove⟩ | ⟨failFast, children, rfl⟩
      · exact finishes_turn hk hfin hj ha hj'
      · obtain rfl := hmove.move_eq hk hj hj'
        refine .recorded .retried exit (by rw [ha]; rfl) (absurd ha) (.inl ?_) rfl rfl
        simp only [Move.apply]
        split
        · exact .inr rfl
        · exact .inl rfl
      · exact ackFanOut_turn hk failFast children (hr ⟨rfl, hholds, hids⟩) hj ha hj'
  · refine .quiet (exec_quiet hk now _ (fun l v v' hl hstep => ?_) hj hj')
    have hother := ViewStep.of_other v v' hid
    cases hl with
    | ackFinish => exact .inr (hother.2.1 _ _ hstep)
    | ackRequeue | ackResume => exact .inr (hother.1 _ hstep)
    | ackPark => exact .inr (hother.2.2 _ _ _ hstep)
    | ackPrune => exact .inl trivial

theorem release_turn (hk : s.toCore.Keyed) (id' : JobId) (token : String)
    (hj : s.jobs.get? id = some job)
    (hj' : (exec s now (.release id' token)).jobs.get? id = some job') :
    Turn now settles races job job' := by
  by_cases hid : id = id'
  · subst hid
    cases hres : (release s now id token).1 with
    | error e =>
      rw [exec, release_error hres, hj] at hj'
      cases hj'
      exact .quiet (.refl job)
    | ok u =>
      obtain ⟨held, hheld, ha, -, hfin | hmove⟩ := release_ok hk hres
      · cases hj.symm.trans hheld
        exact finishes_turn hk hfin hj ha hj'
      · cases hj.symm.trans hheld
        obtain rfl := hmove.move_eq hk hj hj'
        exact .released ha (.inl rfl) rfl rfl
  · refine .quiet (exec_quiet hk now _ (fun l v v' hl hstep => ?_) hj hj')
    have hother := ViewStep.of_other v v' hid
    cases hl with
    | release => exact .inr (hother.1 _ hstep)
    | releaseCancel => exact .inr (hother.2.1 _ _ hstep)
    | releasePrune => exact .inl trivial

end

section
variable {s : Store V} {now : Millis} {id : JobId} {job job' : MemJob V} {settles races : Prop}

/-- An iteration for another job leaves this record or deletes it. -/
theorem recoverJob_apart (maxStalledCount : ℤ) (acc : List Recovered × Store V) {id' : JobId}
    (hk : acc.2.toCore.Keyed) (hne : id ≠ id')
    (hj' : (recoverJob now maxStalledCount acc id').2.jobs.get? id = some job') :
    acc.2.jobs.get? id = some job' := by
  let P : Label V → Prop := fun l => l.IsPrune ∨ l = .move id' (.stall now) ∨
    ∃ e, l = .finish id' e now
  have hdoes : Does P acc.2.toCore (recoverJob now maxStalledCount acc id').2.toCore :=
    recoverJob_does now maxStalledCount acc id' hk (.inr (.inl rfl)) (.inr (.inr ⟨_, rfl⟩))
      (.inr (.inr ⟨_, rfl⟩)) fun _ => .inl trivial
  refine hdoes.view hk id (I := fun v => ∀ j, v.job = some j → acc.2.jobs.get? id = some j)
    (fun l v v' hl hstep _ hv j hjv => ?_) (fun _ hjv => hjv) job' hj'
  have hother := ViewStep.of_other v v' hne
  rcases hl with hl | rfl | ⟨e, rfl⟩
  · cases l <;> try exact hl.elim
    cases hstep with
    | same => exact hv j hjv
    | prune => cases hjv
  · rw [hother.1 _ hstep] at hjv
    exact hv j hjv
  · rw [hother.2.1 _ _ hstep] at hjv
    exact hv j hjv

/-- The iteration of this job. -/
theorem recoverJob_turn (maxStalledCount : ℤ) (acc : List Recovered × Store V)
    (hk : acc.2.toCore.Keyed) (hj : acc.2.jobs.get? id = some job)
    (hj' : (recoverJob now maxStalledCount acc id).2.jobs.get? id = some job') :
    Turn now settles races job job' := by
  by_cases hdue : ∃ expiresAt, job.state = .active ∧ job.lockExpiresAt = some expiresAt ∧
      expiresAt ≤ now
  · obtain ⟨expiresAt, ha, he, hle⟩ := hdue
    obtain rfl := hk _ _ hj
    rcases recoverJob_expired now maxStalledCount acc hk hj ha he hle with ⟨e, -, hfin⟩ | hmove
    · exact finishes_turn hk hfin hj ha hj'
    · obtain rfl := hmove.move_eq hk hj hj'
      exact .recorded .stalled none (by rw [ha]; rfl) (absurd ha) (.inl (.inl rfl)) rfl rfl
  · rw [recoverJob_skip now maxStalledCount acc id fun mid expiresAt hmid ha he => ?_, hj] at hj'
    · cases hj'
      exact .quiet (.refl job)
    · cases hj.symm.trans hmid
      exact not_le.mp fun hle => hdue ⟨expiresAt, ha, he, hle⟩

/-- The loop comes to this job once. -/
theorem recoverJobs_turn (maxStalledCount : ℤ) (ids : List JobId) (hnodup : ids.Nodup) :
    ∀ acc : List Recovered × Store V, acc.2.toCore.Keyed →
      ((∀ j, acc.2.jobs.get? id = some j → j = job) ∨
        id ∉ ids ∧ ∀ j, acc.2.jobs.get? id = some j → Turn now settles races job j) →
      ∀ j, (ids.foldl (recoverJob now maxStalledCount) acc).2.jobs.get? id = some j →
        Turn now settles races job j := by
  induction ids with
  | nil =>
    rintro acc - (h | ⟨-, h⟩) j hj
    · rw [h j hj]
      exact .quiet (.refl job)
    · exact h j hj
  | cons id' ids ih =>
    intro acc hk h
    have hdoes : Does (fun _ => True) acc.2.toCore
        (recoverJob now maxStalledCount acc id').2.toCore :=
      recoverJob_does now maxStalledCount acc id' hk trivial trivial trivial fun _ => trivial
    rw [List.nodup_cons] at hnodup
    refine ih hnodup.2 _ (hdoes.keyed hk) ?_
    by_cases hid : id = id'
    · subst hid
      rcases h with h | ⟨hnotin, -⟩
      · refine .inr ⟨hnodup.1, fun j hj => ?_⟩
        cases hstored : acc.2.jobs.get? id with
        | some mid =>
          rw [h mid hstored] at hstored
          exact recoverJob_turn maxStalledCount acc hk hstored hj
        | none =>
          have hskip := recoverJob_skip now maxStalledCount acc id fun mid _ hmid => by
            cases hstored.symm.trans hmid
          rw [hskip, hstored] at hj
          cases hj
      · exact absurd List.mem_cons_self hnotin
    · rcases h with h | ⟨hnotin, h⟩
      · exact .inl fun j hj => h j (recoverJob_apart maxStalledCount acc hk hid hj)
      · exact .inr ⟨fun hin => hnotin (List.mem_cons_of_mem _ hin),
          fun j hj => h j (recoverJob_apart maxStalledCount acc hk hid hj)⟩

theorem exec_turn (hk : s.toCore.Keyed) (op : Op V) (hj : s.jobs.get? id = some job)
    (hj' : (exec s now op).jobs.get? id = some job') :
    Turn now (SettlesJob s id op) (FansOut s id op ∧ job.cancelRequested = true) job job' := by
  cases op with
  | claim options => exact claim_turn hk options hj hj'
  | retry id' => exact retry_turn hk id' hj hj'
  | cancel id' => exact cancelJob_turn hk id' (fun h => h) hj hj'
  | cancelByDedupe name key =>
    rw [exec, cancelByDedupe] at hj'
    split at hj'
    · cases hj.symm.trans hj'
      exact .quiet (.refl job)
    · next entry hentry =>
      have hturn : (cancelJob s now entry.jobId).2.jobs.get? id = some job' →
          Turn now (SettlesJob s id (.cancelByDedupe name key))
            (FansOut s id (.cancelByDedupe name key) ∧ job.cancelRequested = true) job job' :=
        cancelJob_turn hk entry.jobId (fun h => ⟨entry, hentry, h⟩) hj
      split at hj'
      · next _ t heq =>
        rw [heq] at hturn
        exact hturn hj'
      · next _ _ t heq =>
        rw [heq] at hturn
        exact hturn hj'
  | recordChildResults reports => exact recordChildResults_turn hk reports hj hj'
  | ack id' token outcome => exact ack_turn hk id' token outcome And.intro hj hj'
  | release id' token => exact release_turn hk id' token hj hj'
  | recoverStalled maxStalledCount =>
    have hcore := recoverStalled_toCore s now maxStalledCount
    refine recoverJobs_turn maxStalledCount s.jobs.keys s.jobs.nodup_keys ([], s) hk
      (.inl fun j hjv => Option.some.inj (hjv.symm.trans hj)) job' ?_
    rw [← show _ = _ from congrArg Core.jobs hcore]
    exact hj'
  | _ =>
    refine .quiet (exec_quiet hk now _ (fun l v v' hl _ => .inl ?_) hj hj')
    cases hl <;> trivial

end

/-! ## The order of the entries -/

/-- The entries are in order, and none is ahead of the clock. -/
structure Ordered (clock : Millis) (job : MemJob V) : Prop where
  numbered : Numbered job
  past : ∀ entry ∈ job.attempts, entry.finishedAt ≤ clock

theorem Ordered.of_eq {clock clock' : Millis} {job job' : MemJob V} (h : Ordered clock job)
    (ha : job'.attempts = job.attempts) (hclock : clock ≤ clock') : Ordered clock' job' := by
  refine ⟨⟨?_, ?_⟩, ?_⟩ <;> rw [ha]
  · exact h.numbered.attempt
  · exact h.numbered.finished
  · exact fun entry hentry => (h.past entry hentry).trans hclock

/-- Entries of the moment are appended. -/
theorem Ordered.append {clock now : Millis} {job job' : MemJob V} (h : Ordered clock job)
    (hclock : clock ≤ now) {added : List (AttemptRecord V)}
    (ha : job'.attempts = job.attempts ++ added)
    (hnow : ∀ entry ∈ added, entry.finishedAt = now)
    (hnumber : ∀ i entry, added[i]? = some entry → entry.attempt = job.attempts.length + i + 1) :
    Ordered now job' := by
  refine ⟨⟨?_, ?_⟩, ?_⟩ <;> rw [ha]
  · intro i entry hentry
    rw [List.getElem?_append] at hentry
    split at hentry
    · exact h.numbered.attempt i entry hentry
    · rw [hnumber _ entry hentry]
      omega
  · rw [List.pairwise_append]
    refine ⟨h.numbered.finished, List.pairwise_of_forall_mem_list fun a hin b hin' => ?_,
      fun a hin b hin' => ?_⟩
    · rw [hnow a hin, hnow b hin']
    · rw [hnow b hin']
      exact (h.past a hin).trans hclock
  · intro entry hentry
    rcases List.mem_append.mp hentry with hin | hin
    · exact (h.past entry hin).trans hclock
    · exact (hnow entry hin).le

/-- The entries an operation appends: none or one, or the two of a cancelled fan-out. -/
theorem Turn.added {now : Millis} {settles races : Prop} {job job' : MemJob V}
    (h : Turn now settles races job job') :
    ∃ added, job'.attempts = job.attempts ++ added ∧
      (∀ entry ∈ added, entry.startedAt = job.processedAt ∧ entry.finishedAt = now) ∧
      (∀ i entry, added[i]? = some entry → entry.attempt = job.attempts.length + i + 1) ∧
      (added ≠ [] → job.state = .active ∨ (Idle job.state ∨ job.state = .waitingChildren) ∧ settles) ∧
      (added.length ≤ 1 ∨ races) := by
  have hnone : job'.attempts = job.attempts → _ := fun ha =>
    (⟨[], by rw [ha, List.append_nil], by simp, by simp, by simp, by simp⟩ :
      ∃ added : List (AttemptRecord V), job'.attempts = job.attempts ++ added ∧
        (∀ entry ∈ added, entry.startedAt = job.processedAt ∧ entry.finishedAt = now) ∧
        (∀ i entry, added[i]? = some entry → entry.attempt = job.attempts.length + i + 1) ∧
        (added ≠ [] → job.state = .active ∨ (Idle job.state ∨ job.state = .waitingChildren) ∧ settles) ∧
        (added.length ≤ 1 ∨ races))
  cases h with
  | quiet h => exact hnone h.attempts
  | claimed _ _ _ ha | released _ _ _ ha | resumed _ _ _ ha | retried _ _ _ ha => exact hnone ha
  | recorded outcome exit hs hc _ _ ha =>
    refine ⟨_, ha, by simp [entryOf], fun i entry hentry => ?_, fun _ => ?_, .inl le_rfl⟩
    · obtain ⟨rfl, rfl⟩ : i = 0 ∧ _ := by simpa [List.getElem?_singleton] using hentry
      rfl
    · rcases live_cases hs with hactive | hopen
      · exact .inl hactive
      · exact .inr ⟨hopen, hc (unheld hopen)⟩
  | fannedOut hs _ _ ha =>
    refine ⟨_, ha, by simp [entryOf], fun i entry hentry => ?_,
      fun _ => .inl hs, .inl le_rfl⟩
    obtain ⟨rfl, rfl⟩ : i = 0 ∧ _ := by simpa [List.getElem?_singleton] using hentry
    rfl
  | fanOutCancelled hr hs _ _ ha =>
    refine ⟨_, ha, by simp [entryOf], fun i entry hentry => ?_,
      fun _ => .inl hs, .inr hr⟩
    rcases i with _ | _ | i
    · cases hentry
      rfl
    · cases hentry
      rfl
    · cases hentry

theorem Turn.ordered {now clock : Millis} {settles races : Prop} {job job' : MemJob V}
    (h : Turn now settles races job job') (hjob : Ordered clock job) (hclock : clock ≤ now) :
    Ordered now job' := by
  obtain ⟨added, ha, hdated, hnumber, -⟩ := h.added
  exact hjob.append hclock ha (fun entry hin => (hdated entry hin).2) hnumber

/-! ## The run that is going on -/

/-- What the history of a job says about its record: a run goes on while the job is active. -/
structure RunInv (run : Option Millis) (job : MemJob V) : Prop where
  held : job.state = .active → run = job.processedAt ∧ run.isSome
  idle : job.state ≠ .active → run = none
  started : ∀ startedAt, run = some startedAt → ∀ entry ∈ job.attempts, entry.finishedAt ≤ startedAt
  consecutive : Consecutive job

theorem track_of_same {now : Millis} {job job' : MemJob V} {run : Option Millis}
    (ha : job'.attempts = job.attempts) (hs : job.state = .active ↔ job'.state = .active) :
    track now job job' run = run := by
  unfold track
  rw [if_neg fun h => h.1 (hs.mpr h.2), ha, List.drop_length, if_neg (by simp),
    if_neg fun h => h.2 (hs.mp h.1)]

theorem track_of_over {now : Millis} {job job' : MemJob V} {run : Option Millis}
    (hs' : job'.state ≠ .active) (hover : job.state ≠ .active → run = none) :
    track now job job' run = none := by
  unfold track
  rw [if_neg fun h => hs' h.2]
  split
  · rfl
  · by_cases hs : job.state = .active
    · rw [if_pos ⟨hs, hs'⟩]
    · rw [if_neg fun h => hs h.1, hover hs]

theorem Quiet.runInv {now : Millis} {job job' : MemJob V} (h : Quiet job job') {run : Option Millis}
    (hjob : RunInv run job) : RunInv (track now job job' run) job' := by
  have hactive : job.state = .active ↔ job'.state = .active := by
    rcases h.state with heq | ⟨hidle, hidle'⟩
    · rw [heq]
    · exact iff_of_false (not_idle hidle).1 (not_idle hidle').1
  rw [track_of_same h.attempts hactive]
  refine ⟨fun hs => ?_, fun hs => hjob.idle fun hs' => hs (hactive.mp hs'), ?_, ?_⟩
  · rw [h.processedAt]
    exact hjob.held (hactive.mpr hs)
  · rw [h.attempts]
    exact hjob.started
  · rw [Consecutive, h.attempts]
    exact hjob.consecutive

section
variable {now : Millis} {settles races : Prop} {job job' : MemJob V} {run : Option Millis}

/-- Without a stale claim time, what is added carries the run that is going on. -/
theorem Turn.run_eq (h : Turn now settles races job job') (hjob : RunInv run job)
    (hsettled : settles → Idle job.state ∨ job.state = .waitingChildren → job.processedAt = none)
    {added : List (AttemptRecord V)} (ha : job'.attempts = job.attempts ++ added)
    {entry : AttemptRecord V} (hin : entry ∈ added) : run = job.processedAt := by
  obtain ⟨added', ha', -, -, hopen, -⟩ := h.added
  obtain rfl : added = added' := List.append_cancel_left (ha.symm.trans ha')
  rcases hopen (List.ne_nil_of_mem hin) with hactive | ⟨hopen, hc⟩
  · exact (hjob.held hactive).1
  · rw [hsettled hc hopen, hjob.idle (unheld hopen)]

theorem Turn.consecutive (h : Turn now settles races job job') (hjob : RunInv run job)
    (hsettled : settles → Idle job.state ∨ job.state = .waitingChildren → job.processedAt = none)
    (hraces : ¬ races) : Consecutive job' := by
  obtain ⟨added, ha, hdated, -, -, hone⟩ := h.added
  rw [Consecutive, ha, List.pairwise_append]
  refine ⟨hjob.consecutive, ?_, fun a hin b hin' _ startedAt hstarted => ?_⟩
  · match added, hone.resolve_right hraces with
    | [], _ => exact .nil
    | [_], _ => exact List.pairwise_singleton _ _
  · rw [(hdated b hin').1, ← h.run_eq hjob hsettled ha hin'] at hstarted
    exact hjob.started startedAt hstarted a hin

/-- Only a claim makes a job active. -/
theorem Turn.active (h : Turn now settles races job job') (hs' : job'.state = .active) :
    Quiet job job' ∨
      Idle job.state ∧ job'.processedAt = some now ∧ job'.attempts = job.attempts := by
  have hno : ¬ (Idle job'.state ∨ job'.state.isTerminal = true) := by
    rw [hs']
    rintro ((h | h) | h) <;> cases h
  cases h with
  | quiet h => exact .inl h
  | claimed hs _ hp ha => exact .inr ⟨hs, hp, ha⟩
  | released _ h | resumed _ h | retried _ h => exact absurd (.inl h) hno
  | recorded _ _ _ _ h => exact absurd h hno
  | fannedOut _ h =>
    rcases h with h | h
    · cases h.symm.trans hs'
    · exact absurd (.inl h) hno
  | fanOutCancelled _ _ h => exact absurd (.inr h) hno

theorem Turn.runInv (h : Turn now settles races job job') (hjob : RunInv run job)
    (hsettled : settles → Idle job.state ∨ job.state = .waitingChildren → job.processedAt = none)
    (hraces : ¬ races) (hpast : ∀ entry ∈ job.attempts, entry.finishedAt ≤ now) :
    RunInv (track now job job' run) job' := by
  have hconsecutive := h.consecutive hjob hsettled hraces
  by_cases hs' : job'.state = .active
  · rcases h.active hs' with hquiet | ⟨hidle, hp, ha⟩
    · exact hquiet.runInv hjob
    · have htrack : track now job job' run = some now := if_pos ⟨(not_idle hidle).1, hs'⟩
      rw [htrack]
      refine ⟨fun _ => ⟨hp.symm, rfl⟩, fun h => absurd hs' h, ?_, hconsecutive⟩
      rintro startedAt ⟨⟩ entry hin
      rw [ha] at hin
      exact hpast entry hin
  · rw [track_of_over hs' hjob.idle]
    exact ⟨fun h => absurd h hs', fun _ => rfl, fun _ => nofun, hconsecutive⟩

end

/-! ## Runs of the store -/

theorem exec_fresh {s : Store V} (hk : s.toCore.Keyed) (now : Millis) (op : Op V) {id : JobId}
    (hnone : s.jobs.get? id = none) {job : MemJob V}
    (hj : (exec s now op).jobs.get? id = some job) : Fresh job := by
  have hall : (∀ l, Allows now op l → l.IsQuiet) ∨ ∀ l, Allows now op l → ¬ l.Inserts := by
    cases op with
    | enqueue | resumeEnqueue | tickSchedule => exact .inl fun l hl => by cases hl <;> trivial
    | _ => exact .inr fun l hl hins => by cases hl <;> exact hins
  rcases hall with hquiet | hins
  · refine (exec_does hk now op).view hk id (I := fun v => ∀ j, v.job = some j → Fresh j)
      (fun l v v' hl hstep _ hv j hjv => ?_)
      (fun j hjv => by cases (show none = some j from hnone.symm.trans hjv)) job hj
    rcases hstep.quiet (hquiet l hl) hjv with ⟨-, -, hfresh⟩ | ⟨mid, hmid, h⟩
    · exact hfresh
    · obtain ⟨hidle, hattempts⟩ := hv mid hmid
      refine ⟨?_, h.attempts.trans hattempts⟩
      rcases h.state with heq | ⟨-, hidle'⟩
      · rwa [heq]
      · exact hidle'
  · have hgone := (exec_does hk now op).view hk id (I := fun v => v.job = none)
      (fun l v v' hl hstep _ hv => hstep.absent (hins l hl) hv) hnone
    cases hgone.symm.trans hj

theorem Fresh.runInv {job : MemJob V} (h : Fresh job) : RunInv none job where
  held hs := absurd hs (not_idle h.idle).1
  idle _ := rfl
  started _ := nofun
  consecutive := by
    rw [Consecutive, h.attempts]
    exact .nil

theorem Fresh.ordered {job : MemJob V} (h : Fresh job) (clock : Millis) : Ordered clock job := by
  refine ⟨⟨?_, ?_⟩, ?_⟩ <;> rw [h.attempts]
  · intro i entry hentry
    cases hentry
  · exact .nil
  · intro entry hin
    cases hin

structure OrderInv (s : Clocked V) : Prop where
  keyed : s.store.toCore.Keyed
  ordered : ∀ id job, s.store.jobs.get? id = some job → Ordered s.clock job

/-- What a step does to a record that stays. Only an enqueue reads the clock late. -/
theorem clockStep_turn {s t : Clocked V} {event : Millis × Op V} (h : ClockStep s event t)
    (hk : s.store.toCore.Keyed) {id : JobId} {job job' : MemJob V}
    (hj : s.store.jobs.get? id = some job) (hj' : t.store.jobs.get? id = some job') :
    Quiet job job' ∨
      s.clock ≤ event.1 ∧ Turn event.1 (SettlesJob s.store id event.2)
        (FansOut s.store id event.2 ∧ job.cancelRequested = true) job job' := by
  obtain ⟨now, op⟩ := event
  obtain ⟨hreads, rfl⟩ := h
  cases op with
  | resumeEnqueue request candidate =>
    refine .inl (exec_quiet hk now _ (fun l v v' hl _ => .inl ?_) hj hj')
    cases hl
    trivial
  | _ => exact .inr ⟨hreads, exec_turn hk _ hj hj'⟩

theorem OrderInv.step {s t : Clocked V} {event : Millis × Op V} (h : ClockStep s event t)
    (hs : OrderInv s) : OrderInv t := by
  have hclock : t.clock = max s.clock event.1 := by rw [h.2]
  have hstore : t.store = exec s.store event.1 event.2 := by rw [h.2]
  refine ⟨by rw [hstore]; exact exec_keyed hs.keyed event.1 event.2, fun id job' hj' => ?_⟩
  cases hj : s.store.jobs.get? id with
  | none =>
    rw [hstore] at hj'
    exact (exec_fresh hs.keyed event.1 event.2 hj hj').ordered t.clock
  | some job =>
    have hjob := hs.ordered id job hj
    rcases clockStep_turn h hs.keyed hj hj' with hquiet | ⟨hle, hturn⟩
    · refine hjob.of_eq hquiet.attempts ?_
      rw [hclock]
      exact le_max_left _ _
    · rw [hclock, max_eq_right hle]
      exact hturn.ordered hjob hle

structure TraceInv (s : Traced V) : Prop extends OrderInv s.toClocked where
  runs : ∀ id job, s.store.jobs.get? id = some job → RunInv (s.run id) job

theorem NoStaleSettle.not_races {s : Traced V} {event : Millis × Op V} (h : NoStaleSettle s event)
    {id : JobId} {job : MemJob V} (hj : s.store.jobs.get? id = some job) :
    ¬ (FansOut s.store id event.2 ∧ job.cancelRequested = true) := by
  rintro ⟨hfans, hcancel⟩
  cases hcancel.symm.trans (h.fannedOut id job hfans hj)

theorem TraceInv.step {s t : Traced V} {event : Millis × Op V} (h : TraceStep s event t)
    (hclean : NoStaleSettle s event) (hs : TraceInv s) : TraceInv t := by
  have hstore : t.store = exec s.store event.1 event.2 := by rw [h.1.2]
  refine ⟨hs.toOrderInv.step h.1, fun id job' hj' => ?_⟩
  rw [h.2]
  simp only [hj']
  cases hj : s.store.jobs.get? id with
  | none =>
    rw [hstore] at hj'
    exact (exec_fresh hs.keyed event.1 event.2 hj hj').runInv
  | some job =>
    have hjob := hs.runs id job hj
    rcases clockStep_turn h.1 hs.keyed hj hj' with hquiet | ⟨hle, hturn⟩
    · exact hquiet.runInv hjob
    · exact hturn.runInv hjob (fun hc => hclean.settled id job hc hj) (hclean.not_races hj)
        fun entry hin => ((hs.ordered id job hj).past entry hin).trans hle

theorem TraceInv.start {s : Traced V} (h : TraceStart s) : TraceInv s := by
  obtain ⟨hstore, -⟩ := h
  refine ⟨⟨?_, ?_⟩, ?_⟩ <;> rw [hstore] <;> intro id job hj <;> cases hj

theorem TraceStep.keepsEntries {s t : Traced V} {event : Millis × Op V} (h : TraceStep s event t)
    (hs : OrderInv s.toClocked) : KeepsEntries s t := by
  intro id job job' hj hj'
  rcases clockStep_turn h.1 hs.keyed hj hj' with hquiet | ⟨-, hturn⟩
  · exact hquiet.attempts ▸ List.prefix_rfl
  · obtain ⟨added, ha, -⟩ := hturn.added
    rw [ha]
    exact List.prefix_append _ _

theorem TraceStep.recordsRun {s t : Traced V} {event : Millis × Op V} (h : TraceStep s event t)
    (hs : TraceInv s) (hclean : NoStaleSettle s event) : RecordsRun s event t := by
  intro id job job' i entry hj hj' hentry
  rcases clockStep_turn h.1 hs.keyed hj hj' with hquiet | ⟨-, hturn⟩
  · rw [hquiet.attempts, List.drop_length] at hentry
    cases hentry
  · obtain ⟨added, ha, hdated, -, -, hone⟩ := hturn.added
    rw [ha, List.drop_left] at hentry
    have hin := List.mem_of_getElem? hentry
    have hrun := hturn.run_eq (hs.runs id job hj) (fun hc => hclean.settled id job hc hj) ha hin
    obtain ⟨hlt, -⟩ := List.getElem?_eq_some_iff.mp hentry
    have hzero : i = 0 := by
      have hone := hone.resolve_right (hclean.not_races hj)
      omega
    rw [if_pos hzero, hrun]
    exact hdated entry hin

/-- A cancel of a job that no run holds appends an entry if retention leaves the job there. -/
theorem cancelJob_grows {s : Store V} (hk : s.toCore.Keyed) (now : Millis) {id : JobId}
    {job job' : MemJob V} (hj : s.jobs.get? id = some job)
    (hopen : Idle job.state ∨ job.state = .waitingChildren)
    (hj' : (cancelJob s now id).2.jobs.get? id = some job') : job'.attempts ≠ job.attempts := by
  obtain rfl := hk _ _ hj
  have hlive : job.state.isTerminal = false := by
    rcases hopen with (hst | hst) | hst <;> rw [hst] <;> rfl
  have hcancel : (cancelJob s now job.id).2 = markCancelled s job now := by
    unfold cancelJob
    rcases hopen with (hst | hst) | hst <;> simp only [hj, hst]
  rw [hcancel] at hj'
  refine (markCancelled_finishes hk now hj hlive).view hk
    (I := fun v => ∀ j, v.job = some j → j.attempts ≠ job.attempts) (fun _ hjv => by cases hjv) ?_
    job' hj'
  intro mid flow rows? hmid _ j hjv
  cases hj.symm.trans hmid
  cases hjv
  obtain ⟨outcome, exit, ha⟩ := endJob_attempts { job with flow := flow } now .cancelled
  rw [ha]
  exact fun heq => List.cons_ne_nil _ _ (List.append_right_eq_self.mp heq)

theorem exec_grows {s : Store V} (hk : s.toCore.Keyed) (now : Millis) {op : Op V} {id : JobId}
    {job job' : MemJob V} (hc : SettlesJob s id op) (hj : s.jobs.get? id = some job)
    (hopen : Idle job.state ∨ job.state = .waitingChildren)
    (hj' : (exec s now op).jobs.get? id = some job') : job'.attempts ≠ job.attempts := by
  cases op with
  | cancel id' =>
    cases hc
    exact cancelJob_grows hk now hj hopen hj'
  | cancelByDedupe name key =>
    obtain ⟨entry, hentry, rfl⟩ := hc
    have hgrows : (cancelJob s now entry.jobId).2.jobs.get? entry.jobId = some job' →
        job'.attempts ≠ job.attempts := cancelJob_grows hk now hj hopen
    rw [exec, cancelByDedupe] at hj'
    simp only [hentry] at hj'
    split at hj'
    · next _ t heq =>
      rw [heq] at hgrows
      exact hgrows hj'
    · next _ _ t heq =>
      rw [heq] at hgrows
      exact hgrows hj'
  | recordChildResults reports => exact (recordChildResults_attempts hk now reports hj hj').mpr hc
  | _ => exact hc.elim

/-- A fan-out that meets a pending cancel appends two entries if retention leaves the job there. -/
theorem fanOut_appends_two {s : Store V} (hk : s.toCore.Keyed) (now : Millis) {op : Op V} {id : JobId}
    {job job' : MemJob V} (hf : FansOut s id op) (hj : s.jobs.get? id = some job)
    (hcancel : job.cancelRequested = true) (hj' : (exec s now op).jobs.get? id = some job') :
    job'.attempts.length = job.attempts.length + 2 := by
  cases op with
  | ack id' token outcome =>
    cases outcome with
    | fanOut failFast children =>
      obtain ⟨rfl, hholds, hids⟩ := hf
      have hok : ¬ Errs (ack s now id' token (.fanOut failFast children)) := by
        rw [ack_errs_iff, not_or, not_not, Bool.not_eq_true]
        exact ⟨hholds, hids⟩
      cases hres : (ack s now id' token (.fanOut failFast children)).1 with
      | error e => exact absurd ⟨e, hres⟩ hok
      | ok u =>
        obtain ⟨held, hheld, ha, -, heq⟩ := ack_ok hres
        cases hj.symm.trans hheld
        obtain rfl := hk _ _ hj
        have hpark : Step s.toCore (.park job.id failFast children now)
            (s.toCore.park job failFast children now) := .park failFast children now hj ha
        rw [exec, heq] at hj'
        rcases ackFanOut_cases hk now failFast children hj ha with ⟨-, hfin⟩ | ⟨hno, -⟩ | ⟨hno, -⟩
        · refine hfin.view (hpark.keyed hk)
            (I := fun v => ∀ j, v.job = some j → j.attempts.length = job.attempts.length + 2)
            (fun _ hjv => by cases hjv) ?_ job' hj'
          intro mid flow rows? hmid _ j hjv
          rw [park_get?, if_pos rfl] at hmid
          cases hmid
          cases hjv
          simp [endJob, recordAttempt, parkJob, clearLock]
        · cases hcancel.symm.trans hno
        · cases hcancel.symm.trans hno
    | _ => exact hf.elim
  | _ => exact hf.elim

/-- A stale claim time goes into the ledger. -/
theorem TraceStep.noStaleSettle {s t : Traced V} {event : Millis × Op V} (h : TraceStep s event t)
    (hs : TraceInv s)
    (hstays : ∀ id, SettlesJob s.store id event.2 ∨ FansOut s.store id event.2 →
      (s.store.jobs.get? id).isSome → (t.store.jobs.get? id).isSome)
    (hrecords : RecordsRun s event t) : NoStaleSettle s event := by
  have hstore : t.store = exec s.store event.1 event.2 := by rw [h.1.2]
  refine ⟨fun id job hc hj hopen => ?_, fun id job hf hj => ?_⟩
  · obtain ⟨job', hj'⟩ := Option.isSome_iff_exists.mp (hstays id (.inl hc) (by rw [hj]; rfl))
    have hgrown : job'.attempts ≠ job.attempts :=
      exec_grows hs.keyed event.1 hc hj hopen (hstore ▸ hj')
    rcases clockStep_turn h.1 hs.keyed hj hj' with hquiet | ⟨-, hturn⟩
    · exact absurd hquiet.attempts hgrown
    · obtain ⟨added, ha, hdated, -⟩ := hturn.added
      cases added with
      | nil => exact absurd (ha.trans (List.append_nil _)) hgrown
      | cons entry added =>
        have hentry : (job'.attempts.drop job.attempts.length)[0]? = some entry := by
          rw [ha, List.drop_left]
          rfl
        have hstarted := (hrecords id job job' 0 entry hj hj' hentry).1
        rw [if_pos rfl, (hs.runs id job hj).idle (unheld hopen)] at hstarted
        exact (hdated entry List.mem_cons_self).1.symm.trans hstarted
  · obtain ⟨job', hj'⟩ := Option.isSome_iff_exists.mp (hstays id (.inr hf) (by rw [hj]; rfl))
    by_contra hcancel
    rw [Bool.not_eq_false] at hcancel
    have hlength := fanOut_appends_two hs.keyed event.1 hf hj hcancel (hstore ▸ hj')
    rcases clockStep_turn h.1 hs.keyed hj hj' with hquiet | ⟨-, hturn⟩
    · rw [hquiet.attempts] at hlength
      omega
    · obtain ⟨added, ha, hdated, -, hopen, -⟩ := hturn.added
      rw [ha, List.length_append, Nat.add_left_cancel_iff] at hlength
      obtain ⟨first, second, rfl⟩ := List.length_eq_two.mp hlength
      have hentry : (job'.attempts.drop job.attempts.length)[1]? = some second := by
        rw [ha, List.drop_left]
        rfl
      have hstarted := (hrecords id job job' 1 second hj hj' hentry).1
      rw [if_neg one_ne_zero, (hdated second (by simp)).1] at hstarted
      have hheld := (hs.runs id job hj).held (hf.active hj)
      rw [hheld.1, hstarted] at hheld
      cases hheld.2

/-- Every ledger is numbered, keeps its entries and is in the order they were written. As long as no
cancel and no fail-fast settle finds the claim time of a run that is over, and no fan-out a pending
cancel, every entry carries the claim time of the run it ends, and a run starts after the entries of the
runs before it; an operation that does find one, and whose job stays, writes it down. -/
theorem ledger_chronological (V : Type) :
    (∀ s : Traced V, Reachable TraceStart TraceStep s →
      (∀ id job, s.store.jobs.get? id = some job → Numbered job) ∧
        ∀ event t, TraceStep s event t → KeepsEntries s t) ∧
    ∀ s : Traced V,
      Reachable TraceStart (fun s event t => TraceStep s event t ∧ NoStaleSettle s event) s →
      (∀ id job, s.store.jobs.get? id = some job → Consecutive job) ∧
        ∀ event t, TraceStep s event t → (NoStaleSettle s event → RecordsRun s event t) ∧
          ((∀ id, SettlesJob s.store id event.2 ∨ FansOut s.store id event.2 →
              (s.store.jobs.get? id).isSome → (t.store.jobs.get? id).isSome) →
            RecordsRun s event t → NoStaleSettle s event) := by
  refine ⟨fun s hs => ?_, fun s hs => ?_⟩
  · have hinv : OrderInv s.toClocked := hs.induct (I := fun s => OrderInv s.toClocked)
      (fun _ h => (TraceInv.start h).toOrderInv) fun _ _ _ h hs => hs.step h.1
    exact ⟨fun id job hj => (hinv.ordered id job hj).numbered, fun event t h => h.keepsEntries hinv⟩
  · have hinv : TraceInv s := hs.induct (fun _ h => .start h) fun _ _ _ h hs => hs.step h.1 h.2
    exact ⟨fun id job hj => (hinv.runs id job hj).consecutive,
      fun event t h => ⟨h.recordsRun hinv, h.noStaleSettle hinv⟩⟩

/-! ## A cancel between two runs -/

def Traced.next (s : Traced V) (event : Millis × Op V) : Traced V :=
  let store := exec s.store event.1 event.2
  { store, clock := max s.clock event.1
    run := fun id => trackRecord event.1 (s.run id) (s.store.jobs.get? id) (store.jobs.get? id) }

/-- A run fails and is retried later; before that the job is cancelled. -/
def cancelledRetry : List (Millis × Op Unit) :=
  [(0, .enqueue (.plain "j" "job" "q" ()) .counter), (1, .claim ⟨"q", ["job"], "t", 30⟩),
    (5, .ack "j" "t" (.retry 10 none)), (7, .cancel "j")]

/-- The cancel is dated to the run that had failed. -/
theorem ledger_dates_cancel_back :
    ¬ ∀ s : Traced Unit, Reachable TraceStart TraceStep s →
      ∀ id job, s.store.jobs.get? id = some job → Consecutive job := by
  intro h
  let start : Traced Unit := ⟨⟨Store.empty, 0⟩, fun _ => none⟩
  have hrun : Run TraceStep start cancelledRetry (cancelledRetry.foldl Traced.next start) := by
    refine .cons ⟨⟨?_, rfl⟩, rfl⟩ (.cons ⟨⟨?_, rfl⟩, rfl⟩ (.cons ⟨⟨?_, rfl⟩, rfl⟩
      (.cons ⟨⟨?_, rfl⟩, rfl⟩ (.refl _)))) <;> change (_ : ℤ) ≤ _ <;> decide
  have hordered := h _ ⟨start, _, ⟨rfl, rfl⟩, hrun⟩ "j" _ rfl
  have hfirst := (List.pairwise_cons.mp hordered).1 _ List.mem_cons_self (by decide) 1 rfl
  exact absurd hfirst (by decide)

end EffectMq.Memory
