import Std.Data.String.ToNat
import EffectMq.MemoryJobStore.Records

/-! # The worker's heartbeat

One worker process of `Worker.ts` over a store: taker fibers that claim and run jobs, the `inflight`
map that `processJob` writes, and the renewal loop that reads it. Every event is one synchronous
segment of the source between two yields. Everybody else, the worker's own acks and sweeps
included, acts on the store through `store` events.

* `Covered` says that a run whose handler executes under its own lock is in `inflight`.
* `Exposes` is the way that fails: the key of a job is written for one run while another run of the
  job holds its lock. `heartbeat_covers_iff` says there is no other.
-/

namespace EffectMq.Worker
set_option autoImplicit false
set_option maxHeartbeats 250000

open Transition Memory

variable {V : Type}

/-! ## State -/

structure Flight where
  id : JobId
  token : String
  fiber : ℕ
  deriving DecidableEq

/-- One call of `processJob`; its claim token is its key. -/
structure JobRun where
  id : JobId
  fiber : Option ℕ
  registered : Bool
  running : Bool
  joined : Bool
  deriving DecidableEq

/-- Where the renewal loop stands. -/
inductive Renewal
  | idle
  | snapped (entries : List Flight)
  | extended (result : ExtendLocksResult)
  | delivering (cancelRequested : List JobId)
  deriving DecidableEq

structure WorkerState (V : Type) where
  store : Store V
  inflight : JsMap JobId Flight
  cancelling : List JobId
  tokenCounter : ℕ
  fibers : ℕ
  runs : JsMap String JobRun
  renewal : Renewal
  deriving DecidableEq

def WorkerState.start (store : Store V) : WorkerState V :=
  ⟨store, ∅, [], 0, 0, ∅, .idle⟩

def nextToken (workerId : String) (tokenCounter : ℕ) : String :=
  workerId ++ ":" ++ Nat.repr (tokenCounter + 1)

theorem nextToken_injective (workerId : String) : Function.Injective (nextToken workerId) := by
  intro m n h
  have hrepr : Nat.repr (m + 1) = Nat.repr (n + 1) := String.append_right_inj _ |>.mp h
  exact Nat.succ.inj (Nat.repr_injective hrepr)

/-! ## Events -/

inductive Event (V : Type)
  | claim (now : Millis) (queue : QueueName) (names : List String) (lockDurationMs : Millis)
  | fork (token : String)
  | register (token : String)
  | exit (token : String)
  | unregister (token : String)
  | abandon (token : String)
  | snapshot
  | extend (now lockDurationMs : Millis)
  | drop
  | deliver
  | restart
  | store (now : Millis) (op : Op V)

/-- A claim of a taker: a fresh token, and a run of what the store returns. -/
def claimNext (workerId : String) (s : WorkerState V) (now : Millis) (queue : QueueName)
    (names : List String) (lockDurationMs : Millis) : WorkerState V :=
  let token := nextToken workerId s.tokenCounter
  let (result, store) := Memory.claim s.store now ⟨queue, names, token, lockDurationMs⟩
  let s := { s with store, tokenCounter := s.tokenCounter + 1 }
  match result with
  | .claimed job => { s with runs := s.runs.set token ⟨job.id, none, false, false, false⟩ }
  | .empty _ _ => s

/-- `processJob` after the join: both entries of the job id go. -/
def leave (s : WorkerState V) (token : String) (run : JobRun) : WorkerState V :=
  { s with
    inflight := s.inflight.delete run.id
    cancelling := s.cancelling.filter fun id => decide (id ≠ run.id)
    runs := s.runs.modify token fun run => { run with joined := true } }

/-- An event at the run of one token, when the run allows it. -/
def atRun (s : WorkerState V) (token : String) (enabled : JobRun → Bool)
    (f : JobRun → WorkerState V) : Option (WorkerState V) :=
  (s.runs.get? token).bind fun run => if enabled run then some (f run) else none

def act (workerId : String) (s : WorkerState V) : Event V → Option (WorkerState V)
  | .claim now queue names lockDurationMs =>
    some (claimNext workerId s now queue names lockDurationMs)
  | .fork token =>
    atRun s token (fun run => run.fiber.isNone) fun _ =>
      { s with
        fibers := s.fibers + 1
        runs := s.runs.modify token fun run => { run with fiber := some s.fibers, running := true } }
  | .register token =>
    atRun s token (fun run => run.fiber.isSome && !run.registered) fun run =>
      { s with
        inflight := s.inflight.set run.id ⟨run.id, token, run.fiber.getD 0⟩
        runs := s.runs.modify token fun run => { run with registered := true } }
  | .exit token =>
    atRun s token (·.running) fun _ =>
      { s with runs := s.runs.modify token fun run => { run with running := false } }
  | .unregister token =>
    atRun s token (fun run => run.registered && !run.joined && !run.running) (leave s token)
  | .abandon token =>
    -- the join is interrupted by worker shutdown; the handler is stopped only afterwards
    atRun s token (fun run => run.registered && !run.joined) (leave s token)
  | .snapshot =>
    match s.renewal with
    | .idle =>
      some (if s.inflight.values = [] then s
        else { s with renewal := .snapped s.inflight.values })
    | _ => none
  | .extend now lockDurationMs =>
    match s.renewal with
    | .snapped entries =>
      let (result, store) := Memory.extendLocks s.store now
        (entries.map fun entry => ⟨entry.id, entry.token⟩) lockDurationMs
      some { s with store, renewal := .extended result }
    | _ => none
  | .drop =>
    match s.renewal with
    | .extended result =>
      some { s with
        inflight := result.lost.foldl JsMap.delete s.inflight
        renewal := .delivering result.cancelRequested }
    | _ => none
  | .deliver =>
    match s.renewal with
    | .delivering [] => some { s with renewal := .idle }
    | .delivering (id :: ids) =>
      some { s with
        cancelling := if s.inflight.has id ∧ id ∉ s.cancelling then s.cancelling ++ [id]
          else s.cancelling
        renewal := .delivering ids }
    | _ => none
  | .restart => some { s with renewal := .idle }
  | .store now op => some { s with store := exec s.store now op }

/-- Other claimers use tokens of their own. -/
def Event.Foreign (workerId : String) : Event V → Prop
  | .store _ (.claim options) => ∀ n, options.token ≠ nextToken workerId n
  | _ => True

def Step (workerId : String) (s : WorkerState V) (e : Event V) (t : WorkerState V) : Prop :=
  e.Foreign workerId ∧ act workerId s e = some t

/-! ## Coverage -/

/-- Registered, and the handler has not exited. -/
def JobRun.Executing (run : JobRun) : Prop :=
  run.registered = true ∧ run.running = true

def Covered (s : WorkerState V) : Prop :=
  ∀ token run, s.runs.get? token = some run → run.Executing → HoldsLock s.store run.id token →
    ∃ fiber, run.fiber = some fiber ∧ s.inflight.get? run.id = some ⟨run.id, token, fiber⟩

/-- The `inflight` keys an event writes. -/
def written (s : WorkerState V) : Event V → List JobId
  | .register token | .unregister token | .abandon token =>
    (s.runs.get? token).toList.map (·.id)
  | .drop =>
    match s.renewal with
    | .extended result => result.lost
    | _ => []
  | _ => []

/-- The event writes the key of a job while a run of the job executes under the lock. -/
def Exposes (s : WorkerState V) (e : Event V) : Prop :=
  ∃ token run, s.runs.get? token = some run ∧ run.Executing ∧ HoldsLock s.store run.id token ∧
    run.id ∈ written s e

/-! ## What an event does -/

theorem atRun_eq_some {s t : WorkerState V} {token : String} {enabled : JobRun → Bool}
    {f : JobRun → WorkerState V} (h : atRun s token enabled f = some t) :
    ∃ run, s.runs.get? token = some run ∧ enabled run = true ∧ t = f run := by
  obtain ⟨run, hr, h⟩ := Option.bind_eq_some_iff.mp h
  split at h
  · rename_i he
    exact ⟨run, hr, he, (Option.some.inj h).symm⟩
  · cases h

theorem foldl_delete_get? (ids : List JobId) (m : JsMap JobId Flight) (id : JobId) :
    (ids.foldl JsMap.delete m).get? id = if id ∈ ids then none else m.get? id := by
  induction ids generalizing m with
  | nil => rfl
  | cons i ids ih =>
    rw [List.foldl_cons, ih, JsMap.get?_delete]
    by_cases hid : id = i
    · simp [hid]
    · simp [hid]

/-- What holds in every state: tokens come from the counter, and a registered run has its fiber. -/
structure Inv (workerId : String) (s : WorkerState V) : Prop where
  keyed : s.store.toCore.Keyed
  issued : ∀ token run, s.runs.get? token = some run →
    ∃ n < s.tokenCounter, token = nextToken workerId n
  forked : ∀ token run, s.runs.get? token = some run → run.registered = true → run.fiber.isSome

/-- Runs, entries and store as they were, or a store that gives no lock to a run. -/
theorem Covered.of_same {s t : WorkerState V} (h : Covered s) (hin : t.inflight = s.inflight)
    (hruns : ∀ token run, t.runs.get? token = some run → run.Executing →
      s.runs.get? token = some run)
    (hlock : ∀ token run, s.runs.get? token = some run → HoldsLock t.store run.id token →
      HoldsLock s.store run.id token) : Covered t := by
  intro token run hrun hex hl
  have hrun' := hruns token run hrun hex
  rw [hin]
  exact h token run hrun' hex (hlock token run hrun' hl)

theorem Inv.locks {workerId : String} {s : WorkerState V} (h : Inv workerId s) (now : Millis)
    (op : Op V) (hop : ∀ options, op = .claim options →
      ∀ n < s.tokenCounter, options.token ≠ nextToken workerId n)
    (token : String) (run : JobRun) (hrun : s.runs.get? token = some run)
    (hl : HoldsLock (exec s.store now op) run.id token) : HoldsLock s.store run.id token := by
  rcases exec_holdsLock h.keyed now op hl with hl | ⟨options, rfl, rfl⟩
  · exact hl
  · obtain ⟨n, hn, heq⟩ := h.issued _ _ hrun
    exact absurd heq (hop options rfl n hn)

theorem claimNext_spec (workerId : String) (s : WorkerState V) (now : Millis) (queue : QueueName)
    (names : List String) (lockDurationMs : Millis) :
    let t := claimNext workerId s now queue names lockDurationMs
    t.store = exec s.store now
        (.claim ⟨queue, names, nextToken workerId s.tokenCounter, lockDurationMs⟩) ∧
      t.inflight = s.inflight ∧ t.tokenCounter = s.tokenCounter + 1 ∧ ∀ token run,
        t.runs.get? token = some run → s.runs.get? token = some run ∨
          token = nextToken workerId s.tokenCounter ∧ run.registered = false := by
  unfold claimNext
  simp only [exec]
  split
  · refine ⟨rfl, rfl, rfl, fun token run h => ?_⟩
    rw [JsMap.get?_set] at h
    split at h
    · cases h
      exact .inr ⟨‹_›, rfl⟩
    · exact .inl h
  · exact ⟨rfl, rfl, rfl, fun token run h => .inl h⟩

theorem Inv.step {workerId : String} {s t : WorkerState V} {e : Event V} (hs : Step workerId s e t)
    (h : Inv workerId s) : Inv workerId t := by
  obtain ⟨_, hact⟩ := hs
  have hmodify : ∀ (token : String) (f : JobRun → JobRun),
      (∀ run, s.runs.get? token = some run → (f run).registered = true → (f run).fiber.isSome) →
      Inv workerId { s with runs := s.runs.modify token f } := by
    intro token f hf
    refine ⟨h.keyed, fun token' run' h' => ?_, fun token' run' h' hreg => ?_⟩
    all_goals
      rw [JsMap.get?_modify] at h'
      split at h'
    · obtain ⟨run, hr, rfl⟩ := Option.map_eq_some_iff.mp h'
      exact h.issued _ run (by simp [*])
    · exact h.issued _ _ h'
    · obtain ⟨run, hr, rfl⟩ := Option.map_eq_some_iff.mp h'
      exact hf run hr hreg
    · exact h.forked _ _ h' hreg
  cases e with
  | claim now queue names lockDurationMs =>
    cases hact
    obtain ⟨hstore, _, hcount, hruns⟩ := claimNext_spec workerId s now queue names lockDurationMs
    refine ⟨hstore ▸ exec_keyed h.keyed now _, fun token run hr => ?_, fun token run hr hreg => ?_⟩
    · rcases hruns token run hr with hr | ⟨rfl, _⟩
      · obtain ⟨n, hn, rfl⟩ := h.issued token run hr
        exact ⟨n, by omega, rfl⟩
      · exact ⟨s.tokenCounter, by omega, rfl⟩
    · rcases hruns token run hr with hr | ⟨_, hno⟩
      · exact h.forked token run hr hreg
      · rw [hno] at hreg
        cases hreg
  | fork token =>
    obtain ⟨run, hr, he, rfl⟩ := atRun_eq_some hact
    have hm := hmodify token (fun run => { run with fiber := some s.fibers, running := true })
      (fun _ _ _ => rfl)
    exact ⟨hm.keyed, hm.issued, hm.forked⟩
  | register token =>
    obtain ⟨run, hr, he, rfl⟩ := atRun_eq_some hact
    have hm := hmodify token (fun run => { run with registered := true }) (fun run' hr' _ => by
      cases hr.symm.trans hr'
      exact (Bool.and_eq_true_iff.mp he).1)
    exact ⟨hm.keyed, hm.issued, hm.forked⟩
  | exit token =>
    obtain ⟨run, hr, he, rfl⟩ := atRun_eq_some hact
    exact hmodify token _ (fun run' hr' => h.forked token run' hr')
  | unregister token | abandon token =>
    obtain ⟨run, hr, he, rfl⟩ := atRun_eq_some hact
    have hm := hmodify token (fun run => { run with joined := true })
      (fun run' hr' => h.forked token run' hr')
    exact ⟨hm.keyed, hm.issued, hm.forked⟩
  | snapshot =>
    simp only [act] at hact
    split at hact
    · cases hact
      split
      · exact h
      · exact ⟨h.keyed, h.issued, h.forked⟩
    · cases hact
  | extend now lockDurationMs =>
    simp only [act] at hact
    split at hact
    · rename_i entries _
      cases hact
      exact ⟨exec_keyed h.keyed now (.extendLocks _ lockDurationMs), h.issued, h.forked⟩
    · cases hact
  | drop =>
    simp only [act] at hact
    split at hact
    · cases hact
      exact ⟨h.keyed, h.issued, h.forked⟩
    · cases hact
  | deliver =>
    simp only [act] at hact
    split at hact
    · cases hact
      exact ⟨h.keyed, h.issued, h.forked⟩
    · cases hact
      exact ⟨h.keyed, h.issued, h.forked⟩
    · cases hact
  | restart =>
    cases hact
    exact ⟨h.keyed, h.issued, h.forked⟩
  | store now op =>
    cases hact
    exact ⟨exec_keyed h.keyed now op, h.issued, h.forked⟩

/-! ## Coverage, step by step -/

theorem act_covered {workerId : String} {s t : WorkerState V} {e : Event V}
    (hs : Step workerId s e t) (hinv : Inv workerId s) (h : Covered s) (hsafe : ¬ Exposes s e) :
    Covered t := by
  obtain ⟨hforeign, hact⟩ := hs
  -- a write of another job's key
  have hother : ∀ token run, s.runs.get? token = some run → run.Executing →
      HoldsLock s.store run.id token → ∀ i ∈ written s e, run.id ≠ i :=
    fun token run hr hex hl i hi heq => hsafe ⟨token, run, hr, hex, hl, heq ▸ hi⟩
  have hleave : ∀ token run, s.runs.get? token = some run → written s e = [run.id] →
      Covered (leave s token run) := by
    intro token run hr hw token' run' hr' hex hl
    obtain ⟨run₀, hr₀, hid, hex₀, hfiber⟩ : ∃ run₀, s.runs.get? token' = some run₀ ∧
        run₀.id = run'.id ∧ run₀.Executing ∧ run₀.fiber = run'.fiber := by
      rw [leave, JsMap.get?_modify] at hr'
      split at hr'
      · rename_i heq
        obtain ⟨run₀, hr₀, rfl⟩ := Option.map_eq_some_iff.mp hr'
        exact ⟨run₀, heq ▸ hr₀, rfl, hex, rfl⟩
      · exact ⟨run', hr', rfl, hex, rfl⟩
    rw [← hid] at hl ⊢
    obtain ⟨fiber, hf, hin⟩ := h token' run₀ hr₀ hex₀ hl
    refine ⟨fiber, hfiber ▸ hf, ?_⟩
    rw [leave, JsMap.get?_delete, if_neg (hother token' run₀ hr₀ hex₀ hl run.id (by simp [hw]))]
    exact hin
  cases e with
  | claim now queue names lockDurationMs =>
    cases hact
    obtain ⟨hstore, hin, _, hruns⟩ := claimNext_spec workerId s now queue names lockDurationMs
    refine h.of_same hin (fun token run hr hex => ?_) (fun token run hr hl => ?_)
    · rcases hruns token run hr with hr | ⟨_, hno⟩
      · exact hr
      · have hreg := hex.1
        rw [hno] at hreg
        cases hreg
    · rw [hstore] at hl
      refine hinv.locks now _ (fun options heq n hn htok => ?_) token run hr hl
      cases heq
      have hcount := nextToken_injective workerId htok
      omega
  | fork token =>
    obtain ⟨run, hr, he, rfl⟩ := atRun_eq_some hact
    refine h.of_same rfl (fun token' run' hr' hex => ?_) (fun _ _ _ hl => hl)
    rw [JsMap.get?_modify] at hr'
    split at hr'
    · obtain ⟨run₀, hr₀, rfl⟩ := Option.map_eq_some_iff.mp hr'
      cases hr.symm.trans hr₀
      have hf := hinv.forked token run hr hex.1
      rw [Option.isNone_iff_eq_none.mp he] at hf
      cases hf
    · exact hr'
  | register token =>
    obtain ⟨run, hr, he, rfl⟩ := atRun_eq_some hact
    intro token' run' hr' hex hl
    have hw : written s (.register token) = [run.id] := by simp [written, hr]
    rw [JsMap.get?_modify] at hr'
    split at hr'
    · obtain ⟨run₀, hr₀, rfl⟩ := Option.map_eq_some_iff.mp hr'
      cases hr.symm.trans hr₀
      obtain ⟨fiber, hf⟩ := Option.isSome_iff_exists.mp (Bool.and_eq_true_iff.mp he).1
      refine ⟨fiber, hf, ?_⟩
      rw [JsMap.get?_set, if_pos rfl, hf]
      simp [*]
    · obtain ⟨fiber, hf, hin⟩ := h token' run' hr' hex hl
      refine ⟨fiber, hf, ?_⟩
      rw [JsMap.get?_set, if_neg (hother token' run' hr' hex hl run.id (by simp [hw]))]
      exact hin
  | exit token =>
    obtain ⟨run, hr, he, rfl⟩ := atRun_eq_some hact
    refine h.of_same rfl (fun token' run' hr' hex => ?_) (fun _ _ _ hl => hl)
    rw [JsMap.get?_modify] at hr'
    split at hr'
    · obtain ⟨run₀, hr₀, rfl⟩ := Option.map_eq_some_iff.mp hr'
      cases hex.2
    · exact hr'
  | unregister token | abandon token =>
    obtain ⟨run, hr, he, rfl⟩ := atRun_eq_some hact
    exact hleave token run hr (by simp [written, hr])
  | snapshot =>
    simp only [act] at hact
    split at hact
    · cases hact
      split <;> exact h
    · cases hact
  | extend now lockDurationMs =>
    simp only [act] at hact
    split at hact
    · cases hact
      exact h.of_same rfl (fun _ _ hr _ => hr)
        (hinv.locks now (.extendLocks _ lockDurationMs) (fun _ heq => by cases heq))
    · cases hact
  | drop =>
    simp only [act] at hact
    split at hact
    · rename_i result hren
      cases hact
      intro token run hr hex hl
      obtain ⟨fiber, hf, hin⟩ := h token run hr hex hl
      refine ⟨fiber, hf, ?_⟩
      have hlost : run.id ∉ result.lost := fun hi =>
        hother token run hr hex hl run.id (by simpa [written, hren] using hi) rfl
      show (result.lost.foldl JsMap.delete s.inflight).get? run.id = _
      rw [foldl_delete_get?, if_neg hlost]
      exact hin
    · cases hact
  | deliver =>
    simp only [act] at hact
    split at hact <;> cases hact <;> exact h
  | restart =>
    cases hact
    exact h
  | store now op =>
    cases hact
    refine h.of_same rfl (fun _ _ hr _ => hr) (hinv.locks now _ fun options heq n _ => ?_)
    subst heq
    exact hforeign n

theorem not_covered_of_exposes {workerId : String} {s t : WorkerState V} {e : Event V}
    (hs : Step workerId s e t) (h : Exposes s e) : ¬ Covered t := by
  obtain ⟨_, hact⟩ := hs
  obtain ⟨token, run, hr, hex, hl, hw⟩ := h
  intro hc
  have hleave : ∀ token' run', s.runs.get? token' = some run' → run.id = run'.id →
      ¬ Covered (leave s token' run') := by
    intro token' run' _ hid hc
    have hr' : ∃ joined, (leave s token' run').runs.get? token = some { run with joined } := by
      rw [leave, JsMap.get?_modify]
      split
      · exact ⟨true, by simp_all⟩
      · exact ⟨run.joined, hr⟩
    obtain ⟨joined, hr'⟩ := hr'
    obtain ⟨fiber, _, hin⟩ := hc token _ hr' hex hl
    rw [leave, JsMap.get?_delete, if_pos hid] at hin
    cases hin
  cases e with
  | register token' =>
    obtain ⟨run', hr', he, rfl⟩ := atRun_eq_some hact
    have hid : run.id = run'.id := by simpa [written, hr'] using hw
    have hne : token ≠ token' := by
      rintro rfl
      cases hr.symm.trans hr'
      rw [hex.1, Bool.not_true, Bool.and_false] at he
      cases he
    have hkeep : (s.runs.modify token' fun run => { run with registered := true }).get? token =
        some run := by
      rw [JsMap.get?_modify, if_neg hne]
      exact hr
    obtain ⟨fiber, _, hin⟩ := hc token run hkeep hex hl
    rw [JsMap.get?_set, if_pos hid] at hin
    exact hne (congrArg Flight.token (Option.some.inj hin)).symm
  | unregister token' | abandon token' =>
    obtain ⟨run', hr', he, rfl⟩ := atRun_eq_some hact
    exact hleave token' run' hr' (by simpa [written, hr'] using hw) hc
  | drop =>
    simp only [act] at hact
    split at hact
    · rename_i result hren
      cases hact
      obtain ⟨fiber, _, hin⟩ := hc token run hr hex hl
      have hin : (result.lost.foldl JsMap.delete s.inflight).get? run.id = _ := hin
      rw [foldl_delete_get?, if_pos (by simpa [written, hren] using hw)] at hin
      cases hin
    · cases hact
  | _ => cases hw

theorem covered_step {workerId : String} {s t : WorkerState V} {e : Event V}
    (hs : Step workerId s e t) (hinv : Inv workerId s) (h : Covered s) :
    Covered t ↔ ¬ Exposes s e :=
  ⟨fun hc he => not_covered_of_exposes hs he hc, act_covered hs hinv h⟩

/-- A covered run is in the next heartbeat's snapshot. -/
theorem Covered.renewed {s : WorkerState V} (h : Covered s) {token : String} {run : JobRun}
    (hr : s.runs.get? token = some run) (hex : run.Executing)
    (hl : HoldsLock s.store run.id token) :
    ∃ flight ∈ s.inflight.values, flight.id = run.id ∧ flight.token = token := by
  obtain ⟨fiber, _, hin⟩ := h token run hr hex hl
  exact ⟨_, JsMap.mem_values.mpr ⟨run.id, hin⟩, rfl, rfl⟩

/-! ## Runs -/

theorem inv_start (workerId : String) {store : Store V} (h : store.toCore.Keyed) :
    Inv workerId (.start store) := by
  refine ⟨h, fun _ _ hr => ?_, fun _ _ hr => ?_⟩ <;> cases hr

/-- Along every run of a worker, every executing run that holds its lock is in `inflight` exactly if
no event writes the key of a job while a run of the job executes under the lock. -/
theorem heartbeat_covers_iff {workerId : String} {store : Store V}
    (hstore : Reachable Initial Next store) {es : List (Event V)} {u : WorkerState V}
    (hrun : Run (Step workerId) (.start store) es u) :
    (∀ es₁ es₂ t, es = es₁ ++ es₂ → Run (Step workerId) (.start store) es₁ t →
      Run (Step workerId) t es₂ u → Covered t) ↔
    ∀ es₁ e es₂ t t', es = es₁ ++ e :: es₂ → Run (Step workerId) (.start store) es₁ t →
      Step workerId t e t' → Run (Step workerId) t' es₂ u → ¬ Exposes t e := by
  have hstart : Covered (WorkerState.start store) := by
    intro token run hr
    cases hr
  have hkeep : ∀ (s : WorkerState V) e t, Step workerId s e t → Inv workerId s → Inv workerId t :=
    fun s e t hs h => h.step hs
  have hstep : ∀ (s : WorkerState V) e t, Step workerId s e t → Inv workerId s → Covered s →
      (Covered t ↔ ¬ Exposes s e) := fun s e t hs hinv h => covered_step hs hinv h
  exact Run.all_iff hkeep hstep (inv_start workerId (reachable_keyed hstore)) hstart hrun

def acts (workerId : String) : List (Event V) → WorkerState V → Option (WorkerState V)
  | [], s => some s
  | e :: es, s => (act workerId s e).bind (acts workerId es)

theorem run_acts {workerId : String} {es : List (Event V)} (hf : ∀ e ∈ es, e.Foreign workerId)
    {s t : WorkerState V} (h : acts workerId es s = some t) : Run (Step workerId) s es t := by
  induction es generalizing s with
  | nil =>
    cases h
    exact .refl _
  | cons e es ih =>
    obtain ⟨s', hs, h⟩ := Option.bind_eq_some_iff.mp h
    exact .cons ⟨hf e (by simp), hs⟩ (ih (fun e he => hf e (by simp [he])) h)

/-- A run loses its lock, the job is claimed again by the same worker, and the old run ends. -/
def overlap : List (Event Unit) :=
  [.store 0 (.enqueue (.plain "j" "job" "q" ()) .counter),
    .claim 1 "q" ["job"] 10, .fork "w:1", .register "w:1",
    .store 20 (.recoverStalled 5),
    .claim 21 "q" ["job"] 10, .fork "w:2", .register "w:2",
    .exit "w:1", .unregister "w:1"]

theorem overlap_foreign : ∀ e ∈ overlap, e.Foreign "w" := by
  simp [overlap, Event.Foreign]

/-- After it the second run executes under its lock and is not in `inflight`. -/
theorem overlap_uncovered :
    ¬ ∀ es (t : WorkerState Unit), Run (Step "w") (.start Store.empty) es t → Covered t := by
  intro h
  have hc := h overlap _ (run_acts overlap_foreign rfl)
  obtain ⟨fiber, _, hin⟩ := hc "w:2" _ rfl ⟨rfl, rfl⟩ ⟨_, rfl, rfl⟩
  cases hin

theorem heartbeat_covers_iff_overlap :
    ∃ es₁ e es₂ t, overlap = es₁ ++ e :: es₂ ∧ Run (Step "w") (.start Store.empty) es₁ t ∧
      Exposes t e := by
  have hrun : Run (Step "w") (.start Store.empty) overlap _ := run_acts overlap_foreign rfl
  by_contra hno
  have hc := (heartbeat_covers_iff (reachable_next []) hrun).mpr
    (fun es₁ e es₂ t t' heq hr _ _ he => hno ⟨es₁, e, es₂, t, heq, hr, he⟩)
  obtain ⟨fiber, _, hin⟩ := hc overlap [] _ (by simp) hrun (.refl _) "w:2" _ rfl ⟨rfl, rfl⟩
    ⟨_, rfl, rfl⟩
  cases hin

end EffectMq.Worker
