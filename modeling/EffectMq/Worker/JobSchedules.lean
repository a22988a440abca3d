import EffectMq.Worker.Schedules

/-! # Schedule reconciliation

`reconcile` of `JobSchedules.ts`, and `schedule` of `Job.ts` as far as a declared entry calls it. One
service upserts everything it declares and then prunes, store by store, the members of its group that it
does not declare. Everyone else uses the same stores between any two of its calls. A call of the
reconcile may fail before it had its effect or after.
-/

namespace EffectMq.Worker
set_option autoImplicit false
set_option maxHeartbeats 250000

open Transition Memory

variable {V : Type}

/-! ## Declarations -/

/-- The identity of a `Context.Key`. -/
abbrev StoreKey := String

structure ScheduleEntry (V : Type) where
  jobName : String
  key : String
  store : StoreKey
  queue : QueueName
  cron : Option String
  tz : Option String
  everyMs : Option Millis
  payload : V
  metadata : List (String × String)
  priority : ℤ
  attempts : ℤ
  backoff : Option BackoffPolicy
  keep : Option KeepPolicy
  timeoutMs : Option Millis
  deriving DecidableEq

def ScheduleEntry.scheduleKey (entry : ScheduleEntry V) : ScheduleKey := entry.jobName ++ "/" ++ entry.key

def ScheduleEntry.record (entry : ScheduleEntry V) (group : String) (nextRunAt : Millis) :
    ScheduleRecord V where
  key := entry.scheduleKey
  jobName := entry.jobName
  queue := entry.queue
  cron := entry.cron
  tz := entry.tz
  everyMs := entry.everyMs
  payload := entry.payload
  metadata := entry.metadata
  priority := entry.priority
  attemptsMax := max 1 entry.attempts
  backoff := entry.backoff
  keep := entry.keep
  timeoutMs := entry.timeoutMs
  group := some group
  nextRunAt := nextRunAt

/-- What `register` upserts; `none` where it dies of the cadence. -/
def ScheduleEntry.register (cronNext : CronNext) (entry : ScheduleEntry V) (group : String)
    (now : Millis) : Option (ScheduleRecord V) :=
  if entry.cron.isSome = entry.everyMs.isSome then none
  else (nextOccurrence cronNext (entry.record group now) now now).map (entry.record group)

inductive Removal
  | warn | group
  deriving DecidableEq

structure ReconcileOptions (V : Type) where
  group : String
  schedules : List (ScheduleEntry V)
  removal : Removal
  removeAfter : Option Millis
  stores : List StoreKey

/-- `removeAfter` needs the opt-in, and no entry is declared twice. -/
def ReconcileOptions.valid (options : ReconcileOptions V) : Bool :=
  (options.removeAfter.isNone || decide (options.removal = .group)) &&
    decide (options.schedules.map (·.scheduleKey)).Nodup

/-! ## The reconcile and everyone else -/

/-- The prune of one store. A failed call is repeated five times. -/
inductive Prune
  | idle
  | delayed (fireAt : Millis)
  | listing (failures : ℕ)
  | removing (failures : ℕ) (undeclared : List ScheduleKey)
  | finished
  | died
  deriving DecidableEq

def Prune.active : Prune → Bool
  | .delayed _ | .listing _ | .removing _ _ => true
  | .idle | .finished | .died => false

/-- The keys it still means to remove. -/
def Prune.pending : Prune → List ScheduleKey
  | .removing _ undeclared => undeclared
  | _ => []

def Prune.failed : Prune → Prune
  | .listing failures => if failures < 5 then .listing (failures + 1) else .died
  | .removing failures undeclared =>
    if failures < 5 then .removing (failures + 1) undeclared else .died
  | prune => prune

/-- `current` is the store whose prune the loop waits for. -/
inductive ReconcilePhase (V : Type)
  | idle
  | registering (todo : List (ScheduleEntry V))
  | pruning (current : Option StoreKey) (todo : List StoreKey)
  | stopped

structure Reconciling (V : Type) where
  stores : StoreKey → Store V
  phase : ReconcilePhase V
  byStore : JsMap StoreKey (List ScheduleKey)
  prunes : StoreKey → Prune

def Reconciling.setStore (s : Reconciling V) (k : StoreKey) (store : Store V) : Reconciling V :=
  { s with stores := fun k' => if k' = k then store else s.stores k' }

def Reconciling.setPrune (s : Reconciling V) (k : StoreKey) (prune : Prune) : Reconciling V :=
  { s with prunes := fun k' => if k' = k then prune else s.prunes k' }

def Reconciling.declared (s : Reconciling V) (k : StoreKey) : List ScheduleKey :=
  (s.byStore.get? k).getD []

/-- The filters of `listSchedules`. -/
def listSchedules (store : Store V) (jobName : Option String) (queue : Option QueueName)
    (group : Option String) : List (ScheduleRecord V) :=
  store.schedules.values.filter fun schedule =>
    (jobName.all fun name => decide (schedule.jobName = name)) &&
      (queue.all fun queue => decide (schedule.queue = queue)) &&
      group.all fun group => decide (schedule.group = some group)

/-- The members of the group that are not declared. -/
def undeclared (options : ReconcileOptions V) (s : Reconciling V) (k : StoreKey) : List ScheduleKey :=
  ((listSchedules (s.stores k) none none (some options.group)).filter fun member =>
    !decide (member.key ∈ s.declared k)).map (·.key)

/-- Nothing to do, a warning, or the removals. -/
def listed (options : ReconcileOptions V) (s : Reconciling V) (k : StoreKey) : Prune :=
  match undeclared options s k with
  | [] => .finished
  | keys => if options.removal = .warn then .finished else .removing 0 keys

/-- A removal was answered. -/
def removed : List ScheduleKey → Prune
  | [] => .finished
  | keys => .removing 0 keys

inductive ReconcileEvent (V : Type)
  | op (k : StoreKey) (now : Millis) (op : Op V)
  | start
  | register (now : Millis) (answered : Bool)
  | next (now : Millis)
  | wake (k : StoreKey) (now : Millis)
  | list (k : StoreKey) (answered : Bool)
  | remove (k : StoreKey) (landed answered : Bool)
  | stop

/-- `ok` says which operations others may call. -/
inductive ReconcileStep (cronNext : CronNext) (options : ReconcileOptions V)
    (ok : Reconciling V → StoreKey → Op V → Prop) :
    Reconciling V → ReconcileEvent V → Reconciling V → Prop
  | op (s : Reconciling V) (k : StoreKey) (now : Millis) (op : Op V) (h : ok s k op) :
      ReconcileStep cronNext options ok s (.op k now op)
        (s.setStore k (exec (s.stores k) now op))
  | start (s : Reconciling V) (h : s.phase = .idle) (hvalid : options.valid = true) :
      ReconcileStep cronNext options ok s .start
        { s with
          phase := .registering options.schedules
          byStore := options.stores.foldl (fun byStore k => byStore.set k []) ∅ }
  | register (s : Reconciling V) {entry : ScheduleEntry V} {todo : List (ScheduleEntry V)}
      {now : Millis} {record : ScheduleRecord V} (h : s.phase = .registering (entry :: todo))
      (hrecord : entry.register cronNext options.group now = some record) :
      ReconcileStep cronNext options ok s (.register now true)
        { s.setStore entry.store (upsertSchedule (s.stores entry.store) record) with
          phase := .registering todo
          byStore := s.byStore.set entry.store (s.declared entry.store ++ [entry.scheduleKey]) }
  | registerLost (s : Reconciling V) {entry : ScheduleEntry V} {todo : List (ScheduleEntry V)}
      {now : Millis} {record : ScheduleRecord V} (h : s.phase = .registering (entry :: todo))
      (hrecord : entry.register cronNext options.group now = some record) :
      ReconcileStep cronNext options ok s (.register now false)
        { s.setStore entry.store (upsertSchedule (s.stores entry.store) record) with
          phase := .stopped }
  | registered (s : Reconciling V) (now : Millis) (h : s.phase = .registering []) :
      ReconcileStep cronNext options ok s (.next now)
        { s with phase := .pruning none s.byStore.keys }
  | defer (s : Reconciling V) {k : StoreKey} {todo : List StoreKey} {after : Millis} (now : Millis)
      (h : s.phase = .pruning none (k :: todo)) (hafter : options.removeAfter = some after)
      (hgroup : options.removal = .group) :
      ReconcileStep cronNext options ok s (.next now)
        { s.setPrune k (.delayed (now + after)) with phase := .pruning none todo }
  | prune (s : Reconciling V) {k : StoreKey} {todo : List StoreKey} (now : Millis)
      (h : s.phase = .pruning none (k :: todo))
      (hnow : ¬ (options.removal = .group ∧ options.removeAfter.isSome)) :
      ReconcileStep cronNext options ok s (.next now)
        { s.setPrune k (.listing 0) with phase := .pruning (some k) todo }
  | pruned (s : Reconciling V) {k : StoreKey} {todo : List StoreKey} (now : Millis)
      (h : s.phase = .pruning (some k) todo) (hfinished : s.prunes k = .finished) :
      ReconcileStep cronNext options ok s (.next now) { s with phase := .pruning none todo }
  | wake (s : Reconciling V) {k : StoreKey} {now fireAt : Millis} (h : s.prunes k = .delayed fireAt)
      (hfire : fireAt ≤ now) :
      ReconcileStep cronNext options ok s (.wake k now) (s.setPrune k (.listing 0))
  | list (s : Reconciling V) {k : StoreKey} {failures : ℕ} (h : s.prunes k = .listing failures) :
      ReconcileStep cronNext options ok s (.list k true) (s.setPrune k (listed options s k))
  | listFailed (s : Reconciling V) {k : StoreKey} {failures : ℕ}
      (h : s.prunes k = .listing failures) :
      ReconcileStep cronNext options ok s (.list k false) (s.setPrune k (s.prunes k).failed)
  | remove (s : Reconciling V) {k : StoreKey} {failures : ℕ} {key : ScheduleKey}
      {keys : List ScheduleKey} (h : s.prunes k = .removing failures (key :: keys)) :
      ReconcileStep cronNext options ok s (.remove k true true)
        ((s.setStore k (removeSchedule (s.stores k) key).2).setPrune k (removed keys))
  | removeLost (s : Reconciling V) {k : StoreKey} {failures : ℕ} {key : ScheduleKey}
      {keys : List ScheduleKey} (h : s.prunes k = .removing failures (key :: keys)) :
      ReconcileStep cronNext options ok s (.remove k true false)
        ((s.setStore k (removeSchedule (s.stores k) key).2).setPrune k (s.prunes k).failed)
  | removeFailed (s : Reconciling V) {k : StoreKey} {failures : ℕ} {key : ScheduleKey}
      {keys : List ScheduleKey} (h : s.prunes k = .removing failures (key :: keys)) :
      ReconcileStep cronNext options ok s (.remove k false false) (s.setPrune k (s.prunes k).failed)
  | stop (s : Reconciling V) :
      -- A defect, or the scope of the layer closes.
      ReconcileStep cronNext options ok s .stop
        { s with
          phase := .stopped
          prunes := fun k => if (s.prunes k).active then .died else s.prunes k }

/-- Nothing is declared yet, and the stores are fresh. -/
def ReconcileStart (s : Reconciling V) : Prop :=
  s = ⟨fun _ => Store.empty, .idle, ∅, fun _ => .idle⟩

/-! ## What the reconcile removes -/

/-- The step removes this row from the store. -/
def Removes (s : Reconciling V) (e : ReconcileEvent V) (k : StoreKey) (key : ScheduleKey)
    (row : ScheduleRecord V) : Prop :=
  (∃ answered, e = .remove k true answered) ∧
    (∃ failures keys, s.prunes k = .removing failures (key :: keys)) ∧
    (s.stores k).schedules.get? key = some row

/-- The row is the reconcile's to remove: of its group, and not declared. -/
def Owned (options : ReconcileOptions V) (k : StoreKey) (row : ScheduleRecord V) : Prop :=
  row.group = some options.group ∧
    ∀ entry ∈ options.schedules, entry.store = k → entry.scheduleKey ≠ row.key

/-- No one takes over a key that the reconcile has listed and not yet removed. -/
def NoTakeover (options : ReconcileOptions V) (s : Reconciling V) (k : StoreKey) (op : Op V) : Prop :=
  ∀ schedule, op = .upsertSchedule schedule → schedule.key ∈ (s.prunes k).pending →
    schedule.group = some options.group

structure ReconcileInv (options : ReconcileOptions V) (s : Reconciling V) : Prop where
  rowKey : ∀ k key row, (s.stores k).schedules.get? key = some row → row.key = key
  asleep : (∀ current todo, s.phase ≠ .pruning current todo) → ∀ k, (s.prunes k).active = false
  registering : ∀ todo, s.phase = .registering todo →
    ∀ entry ∈ options.schedules, entry ∈ todo ∨ entry.scheduleKey ∈ s.declared entry.store
  pruning : ∀ current todo, s.phase = .pruning current todo →
    ∀ entry ∈ options.schedules, entry.scheduleKey ∈ s.declared entry.store
  pending : ∀ k, ∀ key ∈ (s.prunes k).pending,
    (∀ row, (s.stores k).schedules.get? key = some row → row.group = some options.group) ∧
      ∀ entry ∈ options.schedules, entry.store = k → entry.scheduleKey ≠ key

section Invariant

variable {cronNext : CronNext} {options : ReconcileOptions V} {s t : Reconciling V}
  {e : ReconcileEvent V}

theorem Prune.pending_failed {prune : Prune} {key : ScheduleKey} (h : key ∈ prune.failed.pending) :
    key ∈ prune.pending := by
  cases prune with
  | removing failures keys =>
    simp only [Prune.failed] at h
    split at h
    · exact h
    · cases h
  | listing failures =>
    simp only [Prune.failed] at h
    split at h <;> cases h
  | _ => exact h

theorem Prune.active_of_failed {prune : Prune} (h : prune.failed.active = true) :
    prune.active = true := by
  cases prune with
  | removing failures keys => rfl
  | listing failures => rfl
  | _ => exact h

theorem pending_removed {keys : List ScheduleKey} {key : ScheduleKey}
    (h : key ∈ (removed keys).pending) : key ∈ keys := by
  cases keys with
  | nil => cases h
  | cons => exact h

/-- What a prune lists is of the group and not declared. -/
theorem pending_listed (hrow : ∀ k key row, (s.stores k).schedules.get? key = some row → row.key = key)
    {k : StoreKey} {key : ScheduleKey} (h : key ∈ (listed options s k).pending) :
    key ∉ s.declared k ∧
      ∀ row, (s.stores k).schedules.get? key = some row → row.group = some options.group := by
  have hmem : key ∈ undeclared options s k := by
    unfold listed at h
    split at h
    next => cases h
    next keys hne =>
      split at h
      · cases h
      · exact h
  obtain ⟨member, hmember, rfl⟩ := List.mem_map.mp hmem
  obtain ⟨hlisted, hnot⟩ := List.mem_filter.mp hmember
  obtain ⟨hvalue, hgroup⟩ := List.mem_filter.mp hlisted
  obtain ⟨key, hget⟩ := JsMap.mem_values.mp hvalue
  have hkey := hrow k key member hget
  refine ⟨by simpa using hnot, fun row hget' => ?_⟩
  rw [hkey, hget] at hget'
  cases hget'
  simpa using hgroup

namespace ReconcileInv

variable (hs : ReconcileInv options s)

include hs

/-- A prune goes on with keys it had. -/
theorem setPrune {k : StoreKey} {prune : Prune}
    (hpending : ∀ key ∈ prune.pending, key ∈ (s.prunes k).pending)
    (hactive : prune.active = true → (s.prunes k).active = true) :
    ReconcileInv options (s.setPrune k prune) := by
  refine ⟨hs.rowKey, fun hphase k' => ?_, hs.registering, hs.pruning, fun k' key hkey => ?_⟩
  · have hold := hs.asleep hphase k'
    dsimp only [Reconciling.setPrune]
    split
    next heq =>
      rw [heq] at hold
      by_contra hne
      rw [hactive (Bool.eq_true_of_not_eq_false hne)] at hold
      cases hold
    next => exact hold
  · dsimp only [Reconciling.setPrune] at hkey
    split at hkey
    next heq =>
      rw [heq]
      exact hs.pending k key (hpending key hkey)
    next => exact hs.pending k' key hkey

/-- A store gets rows of the group, or rows of keys that are not to be removed. -/
theorem setStore {k : StoreKey} {store : Store V}
    (hkey : ∀ key row, store.schedules.get? key = some row → row.key = key)
    (hrows : ∀ key row, store.schedules.get? key = some row →
      key ∈ (s.prunes k).pending → row.group = some options.group) :
    ReconcileInv options (s.setStore k store) := by
  refine ⟨fun k' key row hget => ?_, hs.asleep, hs.registering, hs.pruning, fun k' key hpending =>
    ⟨fun row hget => ?_, (hs.pending k' key hpending).2⟩⟩
  · dsimp only [Reconciling.setStore] at hget
    split at hget
    next => exact hkey key row hget
    next => exact hs.rowKey k' key row hget
  · dsimp only [Reconciling.setStore] at hget
    split at hget
    next heq =>
      subst heq
      exact hrows key row hget hpending
    next => exact (hs.pending k' key hpending).1 row hget

/-- What others do while no listed key is taken over. -/
theorem exec {k : StoreKey} (now : Millis) {op : Op V} (hop : NoTakeover options s k op) :
    ReconcileInv options (s.setStore k (Memory.exec (s.stores k) now op)) := by
  refine hs.setStore (fun key row hget => exec_rowKey (hs.rowKey k) now op hget)
    fun key row hget hpending => ?_
  rcases exec_row (s.stores k) now op hget with ⟨old, _, hold, rfl⟩ | ⟨schedule, _, rfl, rfl, rfl⟩
  · exact (hs.pending k key hpending).1 old hold
  · exact hop schedule rfl hpending

theorem removeSchedule (k : StoreKey) (key : ScheduleKey) :
    ReconcileInv options (s.setStore k (Memory.removeSchedule (s.stores k) key).2) := by
  have hget : ∀ key' row,
      (Memory.removeSchedule (s.stores k) key).2.schedules.get? key' = some row →
        (s.stores k).schedules.get? key' = some row := by
    intro key' row hrow
    have hrow : ((s.stores k).schedules.delete key).get? key' = some row := hrow
    rw [JsMap.get?_delete] at hrow
    split at hrow
    · cases hrow
    · exact hrow
  exact hs.setStore (fun key' row hrow => hs.rowKey k key' row (hget key' row hrow))
    fun key' row hrow hpending => (hs.pending k key' hpending).1 row (hget key' row hrow)

/-- While entries are registered no prune is under way. -/
theorem register {entry : ScheduleEntry V} {todo : List (ScheduleEntry V)}
    (h : s.phase = .registering (entry :: todo)) (record : ScheduleRecord V) :
    ReconcileInv options
      (s.setStore entry.store (upsertSchedule (s.stores entry.store) record)) := by
  have hnone : (s.prunes entry.store).pending = [] := by
    have hasleep := hs.asleep (fun current todo hphase => by rw [h] at hphase; cases hphase)
      entry.store
    cases hprune : s.prunes entry.store with
    | removing => rw [hprune] at hasleep; cases hasleep
    | _ => rfl
  have hop : NoTakeover options s entry.store (.upsertSchedule record) := by
    intro schedule _ hpending
    rw [hnone] at hpending
    cases hpending
  exact hs.exec 0 hop

/-- The loop over the stores goes on. -/
theorem setPhase {current current' : Option StoreKey} {todo todo' : List StoreKey}
    (h : s.phase = .pruning current todo) :
    ReconcileInv options { s with phase := .pruning current' todo' } :=
  ⟨hs.rowKey, fun hphase => absurd rfl (hphase current' todo'),
    fun todo hphase => (by cases hphase), fun _ _ _ => hs.pruning current todo h, hs.pending⟩

end ReconcileInv

theorem declared_set (s : Reconciling V) (k k' : StoreKey) (keys : List ScheduleKey) :
    ({ s with byStore := s.byStore.set k keys } : Reconciling V).declared k' =
      if k' = k then keys else s.declared k' := by
  unfold Reconciling.declared
  rw [JsMap.get?_set]
  split <;> rfl

theorem ReconcileStep.inv (h : ReconcileStep cronNext options (NoTakeover options) s e t)
    (hs : ReconcileInv options s) : ReconcileInv options t := by
  cases h with
  | op k now op hop => exact hs.exec now hop
  | start hidle =>
    have hasleep := hs.asleep fun current todo hphase => by rw [hidle] at hphase; cases hphase
    refine ⟨hs.rowKey, fun _ => hasleep, fun todo hphase entry hentry => .inl ?_,
      fun current todo hphase => (by cases hphase), hs.pending⟩
    cases hphase
    exact hentry
  | @register entry todo now record hphase hrecord =>
    have hstored := hs.register hphase record
    have hasleep := hs.asleep fun current todo h => by rw [hphase] at h; cases h
    refine ⟨hstored.rowKey, fun _ => hasleep, fun todo' htodo other hother => ?_,
      fun current todo h => (by cases h), hstored.pending⟩
    cases htodo
    change _ ∨ _ ∈ ({ s with byStore := s.byStore.set entry.store _ } : Reconciling V).declared _
    rw [declared_set]
    rcases hs.registering _ hphase other hother with hin | hdone
    · rcases List.mem_cons.mp hin with rfl | hin
      · refine .inr ?_
        rw [if_pos rfl]
        exact List.mem_append_right _ (List.mem_singleton_self _)
      · exact .inl hin
    · refine .inr ?_
      split
      next heq =>
        rw [← heq]
        exact List.mem_append_left _ hdone
      next => exact hdone
  | @registerLost entry todo now record hphase hrecord =>
    have hstored := hs.register hphase record
    have hasleep := hs.asleep fun current todo h => by rw [hphase] at h; cases h
    exact ⟨hstored.rowKey, fun _ => hasleep, fun _ h => (by cases h), fun _ _ h => (by cases h),
      hstored.pending⟩
  | registered now hphase =>
    refine ⟨hs.rowKey, fun h => absurd rfl (h none s.byStore.keys), fun _ h => (by cases h),
      fun _ _ _ entry hentry => ?_, hs.pending⟩
    exact (hs.registering [] hphase entry hentry).resolve_left List.not_mem_nil
  | @defer k todo after now hphase =>
    refine ⟨hs.rowKey, fun h => absurd rfl (h none todo), fun _ h => (by cases h),
      fun _ _ _ => hs.pruning _ _ hphase, fun k' key hkey => ?_⟩
    dsimp only [Reconciling.setPrune] at hkey
    split at hkey
    next => cases hkey
    next => exact hs.pending k' key hkey
  | @prune k todo now hphase =>
    refine ⟨hs.rowKey, fun h => absurd rfl (h (some k) todo), fun _ h => (by cases h),
      fun _ _ _ => hs.pruning _ _ hphase, fun k' key hkey => ?_⟩
    dsimp only [Reconciling.setPrune] at hkey
    split at hkey
    next => cases hkey
    next => exact hs.pending k' key hkey
  | pruned now hphase => exact hs.setPhase hphase
  | @wake k now fireAt hdelayed =>
    refine hs.setPrune (fun key hkey => by cases hkey) fun _ => ?_
    rw [hdelayed]
    rfl
  | @list k failures hlisting =>
    have hactive : (s.prunes k).active = true := by rw [hlisting]; rfl
    refine ⟨hs.rowKey, fun hphase => ?_, hs.registering, hs.pruning, fun k' key hkey => ?_⟩
    · rw [hs.asleep hphase k] at hactive
      cases hactive
    · dsimp only [Reconciling.setPrune] at hkey
      split at hkey
      next heq =>
        subst heq
        obtain ⟨hnot, hgroup⟩ := pending_listed hs.rowKey hkey
        refine ⟨hgroup, fun entry hentry hstore heq => hnot ?_⟩
        obtain ⟨current, todo, hphase⟩ : ∃ current todo, s.phase = .pruning current todo := by
          by_contra hne
          rw [hs.asleep (fun current todo h => hne ⟨current, todo, h⟩) k'] at hactive
          cases hactive
        rw [← heq, ← hstore]
        exact hs.pruning current todo hphase entry hentry
      next => exact hs.pending k' key hkey
  | @listFailed k failures hlisting =>
    exact hs.setPrune (fun _ => Prune.pending_failed) Prune.active_of_failed
  | @remove k failures key keys hremoving =>
    refine (hs.removeSchedule k key).setPrune (fun key' hkey => ?_) fun _ => ?_
    · change key' ∈ (s.prunes k).pending
      rw [hremoving]
      exact List.mem_cons_of_mem _ (pending_removed hkey)
    · change (s.prunes k).active = true
      rw [hremoving]
      rfl
  | @removeLost k failures key keys hremoving =>
    exact (hs.removeSchedule k key).setPrune (fun _ => Prune.pending_failed) Prune.active_of_failed
  | @removeFailed k failures key keys hremoving =>
    exact hs.setPrune (fun _ => Prune.pending_failed) Prune.active_of_failed
  | stop =>
    refine ⟨hs.rowKey, fun _ k => ?_, fun _ h => (by cases h), fun _ _ h => (by cases h),
      fun k key hkey => hs.pending k key ?_⟩
    · dsimp only
      split
      next => rfl
      next h => exact Bool.eq_false_of_not_eq_true h
    · dsimp only at hkey
      split at hkey
      next => cases hkey
      next => exact hkey

theorem ReconcileStart.inv (h : ReconcileStart s) : ReconcileInv options s := by
  obtain rfl := h
  refine ⟨fun _ _ _ h => (by cases h), fun _ _ => rfl, fun _ h => (by cases h),
    fun _ _ h => (by cases h), fun _ _ h => (by cases h)⟩

end Invariant

/-- Where no listed key is taken over, every row the reconcile removes carries its group at that
moment, and is not declared. -/
theorem reconcile_removes_own {cronNext : CronNext} {options : ReconcileOptions V}
    {s t : Reconciling V} {e : ReconcileEvent V}
    (hreach : Reachable ReconcileStart (ReconcileStep cronNext options (NoTakeover options)) s)
    (_hstep : ReconcileStep cronNext options (NoTakeover options) s e t) {k : StoreKey}
    {key : ScheduleKey} {row : ScheduleRecord V} (hremoves : Removes s e k key row) :
    Owned options k row := by
  have hinv : ReconcileInv options s :=
    hreach.induct (fun _ => ReconcileStart.inv) fun _ _ _ h hs => h.inv hs
  obtain ⟨-, ⟨failures, keys, hremoving⟩, hrow⟩ := hremoves
  have hpending : key ∈ (s.prunes k).pending := by
    rw [hremoving]
    exact List.mem_cons_self
  obtain ⟨hgroup, hundeclared⟩ := hinv.pending k key hpending
  refine ⟨hgroup row hrow, ?_⟩
  rw [hinv.rowKey k key row hrow]
  exact hundeclared

/-! ### A release that drops its last schedule -/

def dropsDigest : ReconcileOptions Unit where
  group := "billing"
  schedules := []
  removal := .group
  removeAfter := none
  stores := ["main"]

def digestRow (group : String) : ScheduleRecord Unit where
  key := "digest/daily"
  jobName := "digest"
  queue := "mail"
  cron := none
  tz := none
  everyMs := some 86400000
  payload := ()
  metadata := []
  priority := 0
  attemptsMax := 1
  backoff := none
  keep := none
  timeoutMs := none
  group := some group
  nextRunAt := 86400000

/-- The row of the last release is there, and the prune is about to list it. -/
def digestListing : Reconciling Unit where
  stores := fun k =>
    if k = "main" then exec Store.empty 0 (.upsertSchedule (digestRow "billing")) else Store.empty
  phase := .pruning (some "main") []
  byStore := (∅ : JsMap StoreKey (List ScheduleKey)).set "main" []
  prunes := fun k => if k = "main" then .listing 0 else .idle

def digestListed : Reconciling Unit :=
  digestListing.setPrune "main" (listed dropsDigest digestListing "main")

theorem digestListed_prunes : digestListed.prunes "main" = .removing 0 ["digest/daily"] := rfl

theorem digestListed_reachable (cronNext : CronNext)
    {ok : Reconciling Unit → StoreKey → Op Unit → Prop}
    (hok : ∀ s k op, (∀ k, s.prunes k = .idle) → ok s k op) :
    Reachable ReconcileStart (ReconcileStep cronNext dropsDigest ok) digestListed := by
  have hupsert : ReconcileStep cronNext dropsDigest ok ⟨fun _ => Store.empty, .idle, ∅, fun _ => .idle⟩
      (.op "main" 0 (.upsertSchedule (digestRow "billing"))) _ := .op _ _ _ _ (hok _ _ _ fun _ => rfl)
  have hlist : ReconcileStep cronNext dropsDigest ok digestListing (.list "main" true) digestListed :=
    .list _ rfl
  exact ⟨_, _, rfl, .cons hupsert (.cons (.start _ rfl rfl) (.cons (.registered _ 0 rfl)
    (.cons (.prune _ 0 rfl (by simp [dropsDigest])) (.single hlist))))⟩

theorem reconcile_removes_own_digest : Owned dropsDigest "main" (digestRow "billing") :=
  reconcile_removes_own
    (digestListed_reachable (fun _ _ _ => none) fun s k op hidle schedule _ hpending => by
      rw [hidle k] at hpending
      cases hpending)
    (.remove digestListed digestListed_prunes) ⟨⟨true, rfl⟩, ⟨0, [], digestListed_prunes⟩, rfl⟩

/-- Another service registers the schedule after it was listed, and the reconcile removes its row. -/
theorem reconcile_removes_taken_over :
    ¬ ∀ (cronNext : CronNext) (options : ReconcileOptions Unit) (s t : Reconciling Unit)
      (e : ReconcileEvent Unit) (k : StoreKey) (key : ScheduleKey) (row : ScheduleRecord Unit),
      Reachable ReconcileStart (ReconcileStep cronNext options fun _ _ _ => True) s →
      ReconcileStep cronNext options (fun _ _ _ => True) s e t → Removes s e k key row →
      Owned options k row := by
  intro h
  have htaken := (digestListed_reachable (fun _ _ _ => none) fun _ _ _ _ => trivial).next
    (.op digestListed "main" 0 (.upsertSchedule (digestRow "reports")) trivial)
  have howned := h _ _ _ _ _ "main" "digest/daily" (digestRow "reports") htaken (.remove _ rfl)
    ⟨⟨true, rfl⟩, ⟨0, [], rfl⟩, rfl⟩
  exact absurd howned.1 (by decide)

end EffectMq.Worker
